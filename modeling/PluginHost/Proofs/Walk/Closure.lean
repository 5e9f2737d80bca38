import Mathlib.Data.List.TakeWhile
import PluginHost.Proofs.Candidate.Making
import PluginHost.Proofs.Walk.Rules
import PluginHost.Proofs.Walk.Runs

/-! # A walk reaches what can be reached

Without links a walk from a directory stays within the rules, whether or not it fails
(`Explored`, `explored_walk`), and what it fails for is something that the rules lead
to (`Obstructed`).  A walk that does not fail leaves nothing out: what was reached was
entered (`Reached.visited`) and what was found was read (`Found.read`).  So its reads are
what is found, each once (`mem_readAt_iff`).

The invariant of soundness is `Explored` for the progress together with `Founded` for the
tasks that are still to be done.  Completeness is an induction over the rules: a
directory that was entered was entered by one turn, and that turn's tasks were taken
care of before the walk ended. -/
namespace PluginHost
namespace Surroundings

variable {here : Surroundings} {home loc : Location}

/-! ## Nothing but what can be reached -/

/-- A task that the rules allow.  The path of a directory may lead nowhere. -/
def Founded (here : Surroundings) (home : Location) : Task → Prop
  | .directory path wild => ∀ loc, here.fs.locate path = .ok loc →
      here.Reached home loc wild ∧ here.fs.hasDirectory loc = true
  | .candidate path wild => ∃ loc, here.fs.locate path = .ok loc ∧ here.Found home loc wild
  | .fault _ _ wild => wild = false → here.Illegible home
  | .note _ => True

/-- What a walk has come to know is what can be reached. -/
structure Explored (here : Surroundings) (home : Location) (p : Progress) : Prop where
  reads : ∀ read ∈ p.reads, ∃ loc, here.fs.locate read.1 = .ok loc ∧ here.Found home loc read.2
  /-- What is remembered and is no directory was read. -/
  visits : ∀ loc wild, (.location loc, wild) ∈ p.visited →
    here.fs.hasDirectory loc = true ∨ ∃ path, (path, wild) ∈ p.reads ∧ here.fs.locate path = .ok loc

/-- What a directory leads to is founded if the directory can be reached. -/
theorem Leads.founded (hfree : here.fs.LinkFree) {dir : Path} {wild : Bool} {t : Task}
    (h : here.Leads dir wild t) (hdir : here.fs.locate dir = .ok loc)
    (hreached : here.Reached home loc wild) (hloc : here.fs.hasDirectory loc = true) :
    here.Founded home t := by
  obtain ⟨entries, hnode⟩ := FileSystem.hasDirectory_iff.mp hloc
  have hself := hfree.locate_ofLocation hnode
  cases h with
  | directory listed names resolved mem =>
    intro next hnext
    have hresolved := resolved
    rw [PathPattern.directories_eq_of_locate hfree hdir hself] at hresolved
    exact ⟨.entry hreached ((lists_iff hfree hdir).mp ⟨_, listed⟩) names hresolved mem hnext,
      PathPattern.hasDirectory_of_mem_directories hfree hdir hloc resolved mem hnext⟩
  | file listed names resolved mem =>
    have hfile := PathPattern.isFile_of_mem_files resolved mem
    obtain ⟨next, hnext, -⟩ := FileSystem.isFile_iff.mp hfile
    rw [PathPattern.files_eq_of_locate hfree hdir hself] at resolved
    exact ⟨next, hnext,
      .entry hreached ((lists_iff hfree hdir).mp ⟨_, listed⟩) names resolved mem hnext⟩
  | bare none mem =>
    rw [manifests, filesMatching_eq hfree hdir, List.map_eq_nil_iff] at none
    rw [filesMatching_eq hfree hdir] at mem
    obtain ⟨name, hname, rfl⟩ := List.mem_map.mp mem
    exact ⟨_, locate_child_of_mem_filesAt hfree hdir hname, .bare hreached none hname⟩
  | illegible first unread =>
    rintro rfl
    have hmem := (List.dropWhile_sublist _).mem (List.mem_of_mem_head? first)
    rw [manifests, filesMatching_eq hfree hdir] at hmem
    obtain ⟨name, hname, rfl⟩ := List.mem_map.mp hmem
    refine ⟨loc, hreached, name, hname, ?_⟩
    rw [← FileSystem.readText_of_locate (locate_child_of_mem_filesAt hfree hdir hname), unread]
    rfl
  | badDirectory listed names bad =>
    intro hw
    rw [listed.hasWildcard_of_bad (.inl bad), Bool.or_true] at hw
    cases hw
  | badFile listed names bad =>
    intro hw
    rw [listed.hasWildcard_of_bad (.inr bad), Bool.or_true] at hw
    cases hw

variable {p q : Progress}

theorem locate_of_spot {fs : FileSystem} {path : Path} (h : fs.spot path = .location loc) :
    fs.locate path = .ok loc := by
  unfold FileSystem.spot at h
  split at h
  · rename_i loc' hloc
    rw [hloc, Spot.location.inj h]
  · cases h

theorem spot_of_locate {fs : FileSystem} {path : Path} (h : fs.locate path = .ok loc) :
    fs.spot path = .location loc := by
  rw [FileSystem.spot, h]

/-- A founded task leads to founded tasks. -/
theorem founded_tasks_turn (hfree : here.fs.LinkFree) {t : Task} (ht : here.Founded home t) :
    ∀ u ∈ (here.turn p t).tasks, here.Founded home u := by
  intro u hu
  obtain ⟨dir, wild, rfl, hmem, -⟩ := here.mem_tasks_turn hu
  obtain ⟨loc, hspot, hloc⟩ := here.spot_of_itinerary_ne_nil (List.ne_nil_of_mem hmem)
  have hdir := locate_of_spot hspot
  cases hn : u.isNote with
  | false => exact ((mem_itinerary_iff hn).mp hmem).founded hfree hdir (ht loc hdir).1 hloc
  | true =>
    cases u with
    | note event => trivial
    | _ => cases hn

/-- A turn on a founded task explores what can be reached. -/
theorem Explored.turn {t : Task} (h : here.Explored home p) (ht : here.Founded home t) :
    here.Explored home (here.turn p t).progress := by
  constructor
  · intro read hread
    rw [reads_turn, List.mem_append] at hread
    rcases hread with hread | hread
    · exact h.reads read hread
    · cases t with
      | candidate path wild =>
        rw [readsOf] at hread
        split at hread
        · cases hread
        · rw [List.mem_singleton.mp hread]
          exact ht
      | _ => cases hread
  · intro loc wild hv
    rw [visited_turn, mem_remember] at hv
    by_cases hold : (Spot.location loc, wild) ∈ p.visited
    · refine (h.visits loc wild hold).imp_right ?_
      rintro ⟨path, hread, hpath⟩
      refine ⟨path, ?_, hpath⟩
      rw [reads_turn]
      exact List.mem_append_left _ hread
    · have hnew := hv.resolve_left hold
      cases t with
      | directory path wild' =>
        obtain ⟨hspot, rfl⟩ := Prod.mk.inj (Option.some.inj hnew)
        exact .inl (ht loc (locate_of_spot hspot)).2
      | candidate path wild' =>
        obtain ⟨hspot, rfl⟩ := Prod.mk.inj (Option.some.inj hnew)
        refine .inr ⟨path, ?_, locate_of_spot hspot⟩
        rw [reads_turn, readsOf, if_neg (by simpa [hspot] using hold)]
        exact List.mem_append_right _ (List.mem_singleton_self _)
      | note event => cases hnew
      | fault subject e wild' => cases hnew

/-! ## What a walk fails for -/

/-- A candidate has the mark that its description was asked for with. -/
theorem fromWildcard_of_described {read : Path × Bool} {c : Candidate}
    (h : here.described read = .ok c) : c.fromWildcard = read.2 := by
  obtain ⟨m, -, hof⟩ := bind_eq_ok h
  exact (Candidate.of_eq_ok hof).2.2.1

/-- Whether a host can use a module that is written out. -/
def Usable (here : Surroundings) (host : HostRuntime) (path : Path) : Prop :=
  ∃ c, here.described (path, false) = .ok c ∧ host.family.accepts c.runtime = true

/-- A module that is written out is assessed without an error if it can be used. -/
theorem assess_isOk_iff {path : Path} {index : CandidateIndex} :
    (∃ outcome, here.assess path false index = .ok outcome) ↔ here.Usable index.host path := by
  rw [assess_eq]
  constructor
  · rintro ⟨outcome, h⟩
    obtain ⟨c, hc, hoffer⟩ := bind_eq_ok h
    refine ⟨c, hc, ?_⟩
    cases ha : index.host.family.accepts c.runtime with
    | true => rfl
    | false =>
      obtain ⟨target, -, hrefused⟩ := CandidateIndex.refused?_eq_some ha
      have hmark : c.fromWildcard = false := fromWildcard_of_described hc
      rw [CandidateIndex.offer, hrefused] at hoffer
      simp [hmark] at hoffer
  · rintro ⟨c, hc, ha⟩
    refine ⟨index.store c, ?_⟩
    rw [hc]
    change index.offer c = _
    rw [CandidateIndex.offer, CandidateIndex.refused?_eq_none_iff.mpr ha]

/-- Something that cannot be skipped is in the way. -/
def Obstructed (here : Surroundings) (host : HostRuntime) (home : Location) : Prop :=
  here.Illegible home ∨
    ∃ path loc, here.fs.locate path = .ok loc ∧ here.Found home loc false ∧ ¬here.Usable host path

variable {start : Path}

/-- **A walk stays within the rules**, and what it fails for is in its way. -/
theorem explored_walk (hfree : here.fs.LinkFree) (hstart : here.fs.locate start = .ok home)
    (hhome : here.fs.hasDirectory home = true) (hp : here.Explored home p) :
    here.Explored home (here.walk [.directory start false] p).1 ∧
      ∀ e, (here.walk [.directory start false] p).2 = some e →
        here.Obstructed p.index.host home := by
  have hfirst : here.Founded home (.directory start false) := by
    intro loc hloc
    rw [hstart] at hloc
    obtain rfl := Except.ok.inj hloc
    exact ⟨.start, hhome⟩
  obtain ⟨⟨hexplored, -⟩, hfault⟩ := (here.run_walk [.directory start false] p).invariant
    (P := fun q => here.Explored home q ∧ q.index.host = p.index.host)
    (R := fun _ t => here.Founded home t)
    (fun q t hq ht => ⟨hq.1.turn ht, (host_turn q t).trans hq.2⟩) (fun _ _ _ hu => hu)
    (fun q t _ ht => founded_tasks_turn hfree ht) ⟨hp, rfl⟩
    (fun t ht => List.mem_singleton.mp ht ▸ hfirst)
  refine ⟨hexplored, fun e he => ?_⟩
  obtain ⟨q, t, ⟨-, hhost⟩, ht, hf, -⟩ := hfault e he
  rcases here.fault_turn.mp hf with ⟨subject, rfl⟩ | ⟨path, rfl, -, hassess⟩
  · exact .inl (ht rfl)
  · obtain ⟨loc, hloc, hfound⟩ := ht
    refine .inr ⟨path, loc, hloc, hfound, fun husable => ?_⟩
    rw [← hhost] at husable
    obtain ⟨outcome, hok⟩ := assess_isOk_iff.mpr husable
    rw [hassess] at hok
    cases hok

/-- A module that is written out can be used if the turn that looks at it does not fail. -/
theorem usable_of_mem_readsOf {t : Task} {path : Path} (hf : (here.turn p t).fault = none)
    (hread : (path, false) ∈ here.readsOf p t) : here.Usable p.index.host path := by
  cases t with
  | candidate path' wild =>
    rw [readsOf] at hread
    split at hread
    · cases hread
    · rename_i hnew
      obtain ⟨rfl, rfl⟩ := Prod.mk.inj (List.mem_singleton.mp hread)
      refine assess_isOk_iff.mp ?_
      cases hassess : here.assess path false p.index with
      | ok outcome => exact ⟨outcome, rfl⟩
      | error e =>
        have hfault := here.fault_turn.mpr (.inr ⟨path, rfl, by simpa using hnew, hassess⟩)
        rw [hf] at hfault
        cases hfault
  | _ => cases hread

/-! ## All that can be reached -/

/-- What a walk from `home` knows when it has not failed. -/
structure Finished (here : Surroundings) (home : Location) (q : Progress) : Prop where
  explored : here.Explored home q
  root : (Spot.location home, false) ∈ q.visited
  /-- What a directory that was entered leads to was taken care of. -/
  closed : ∀ loc wild, (Spot.location loc, wild) ∈ q.visited → here.fs.hasDirectory loc = true →
    ∃ dir, here.fs.locate dir = .ok loc ∧ ∀ u ∈ here.itinerary dir wild, here.Settled q.visited u
  usable : ∀ path, (path, false) ∈ q.reads → here.Usable q.index.host path

/-- A walk that does not fail is finished. -/
theorem finished_walk (hfree : here.fs.LinkFree) (hstart : here.fs.locate start = .ok home)
    (hhome : here.fs.hasDirectory home = true) (hvisited : p.visited = []) (hreads : p.reads = [])
    (h : here.walk [.directory start false] p = (q, none)) : here.Finished home q := by
  have hrun := here.run_walk [.directory start false] p
  have hexplored := (explored_walk hfree hstart hhome (p := p)
    ⟨by simp [hreads], by simp [hvisited]⟩).1
  rw [h] at hrun hexplored
  refine ⟨hexplored, ?_, fun loc wild hv hloc => ?_, ?_⟩
  · refine (hrun.settled _ (List.mem_singleton_self _)).1 _ ?_
    rw [visitOf, spot_of_locate hstart]
  · obtain ⟨before, t, hopened⟩ := (hrun.opened _ hv).resolve_left (by simp [hvisited])
    have hvisit := hopened.visit
    cases t with
    | note event => cases hvisit
    | fault subject e wild' => cases hvisit
    | directory dir wild' =>
      obtain ⟨hspot, rfl⟩ := Prod.mk.inj (Option.some.inj hvisit)
      refine ⟨dir, locate_of_spot hspot, fun u hu => hopened.settled u ?_⟩
      rw [tasks_turn]
      simp only
      rw [if_neg (by simpa [hspot] using hopened.new)]
      exact hu
    | candidate path wild' =>
      -- What was read is a file.
      obtain ⟨hspot, rfl⟩ := Prod.mk.inj (Option.some.inj hvisit)
      have hread : (path, wild') ∈ q.reads := by
        apply hopened.read
        rw [readsOf, if_neg (by simpa [hspot] using hopened.new)]
        exact List.mem_singleton_self _
      obtain ⟨loc', hloc', hfound⟩ := hexplored.reads _ hread
      rw [locate_of_spot hspot] at hloc'
      obtain rfl := Except.ok.inj hloc'
      rw [FileSystem.not_hasDirectory_of_hasFile hfound.hasFile] at hloc
      cases hloc
  · have husable := hrun.preserves_of_not_fault (P := fun q => q.index.host = p.index.host ∧
      ∀ path, (path, false) ∈ q.reads → here.Usable p.index.host path) ?_ ⟨rfl, by simp [hreads]⟩
    · rw [hrun.host_eq]
      exact husable.2
    · rintro r t ⟨hhost, hr⟩ hf
      refine ⟨(host_turn r t).trans hhost, fun path hread => ?_⟩
      rw [reads_turn, List.mem_append] at hread
      rcases hread with hread | hread
      · exact hr path hread
      · rw [← hhost]
        exact usable_of_mem_readsOf hf hread

/-- What a directory that was entered leads to, by whatever path it was entered, was taken
care of. -/
theorem Finished.settled (hq : here.Finished home q) {wild : Bool}
    (hv : (Spot.location loc, wild) ∈ q.visited) (hloc : here.fs.hasDirectory loc = true) :
    ∃ dir, here.fs.locate dir = .ok loc ∧
      ∀ u, u.isNote = false → here.Leads dir wild u → here.Settled q.visited u := by
  obtain ⟨dir, hdir, hsettled⟩ := hq.closed _ _ hv hloc
  exact ⟨dir, hdir, fun u hn hleads => hsettled u ((mem_itinerary_iff hn).mpr hleads)⟩

/-- **What can be reached was entered.** -/
theorem Reached.visited (hfree : here.fs.LinkFree) (hq : here.Finished home q)
    (hhome : here.fs.hasDirectory home = true) {wild : Bool} (h : here.Reached home loc wild) :
    (Spot.location loc, wild) ∈ q.visited ∧ here.fs.hasDirectory loc = true := by
  induction h with
  | start => exact ⟨hq.root, hhome⟩
  | @entry loc next wild entry places place dir listed names resolved mem leads ih =>
    obtain ⟨hv, hloc⟩ := ih
    obtain ⟨entries, hnode⟩ := FileSystem.hasDirectory_iff.mp hloc
    have hself := hfree.locate_ofLocation hnode
    obtain ⟨path, hpath, hsettled⟩ := hq.settled hv hloc
    obtain ⟨manifest, hlists⟩ := (lists_iff hfree hpath).mpr listed
    have hnext := PathPattern.hasDirectory_of_mem_directories hfree hself hloc resolved mem leads
    rw [PathPattern.directories_eq_of_locate hfree hself hpath] at resolved
    have hleads : here.Leads path wild (.directory place.path (wild || entry.hasWildcard)) :=
      .directory hlists names resolved mem
    refine ⟨(hsettled _ rfl hleads).1 _ ?_, hnext⟩
    rw [visitOf, spot_of_locate leads]

/-- **What is found was read.** -/
theorem Found.read (hfree : here.fs.LinkFree) (hq : here.Finished home q)
    (hhome : here.fs.hasDirectory home = true) {wild : Bool} (h : here.Found home loc wild) :
    ∃ path, (path, wild) ∈ q.reads ∧ here.fs.locate path = .ok loc := by
  have hvisited : (Spot.location loc, wild) ∈ q.visited := by
    cases h with
    | @entry dir _ wild entry places place hdir listed names resolved mem leads =>
      obtain ⟨hv, hloc⟩ := hdir.visited hfree hq hhome
      obtain ⟨entries, hnode⟩ := FileSystem.hasDirectory_iff.mp hloc
      obtain ⟨path, hpath, hsettled⟩ := hq.settled hv hloc
      obtain ⟨manifest, hlists⟩ := (lists_iff hfree hpath).mpr listed
      rw [PathPattern.files_eq_of_locate hfree (hfree.locate_ofLocation hnode) hpath] at resolved
      have hleads : here.Leads path wild (.candidate place.path (wild || entry.hasWildcard)) :=
        .file hlists names resolved mem
      refine (hsettled _ rfl hleads).1 _ ?_
      rw [visitOf, spot_of_locate leads]
    | @bare dir wild name hdir none mem =>
      obtain ⟨hv, hloc⟩ := hdir.visited hfree hq hhome
      obtain ⟨path, hpath, hsettled⟩ := hq.settled hv hloc
      have hleads : here.Leads path wild (.candidate (path.child name) true) := by
        refine .bare ?_ ?_
        · rw [manifests, filesMatching_eq hfree hpath, none]
          rfl
        · rw [filesMatching_eq hfree hpath]
          exact List.mem_map_of_mem mem
      refine (hsettled _ rfl hleads).1 _ ?_
      rw [visitOf, spot_of_locate (locate_child_of_mem_filesAt hfree hpath mem)]
  refine (hq.explored.visits loc wild hvisited).resolve_left ?_
  rw [FileSystem.not_hasDirectory_of_hasFile h.hasFile]
  exact Bool.false_ne_true

/-- A walk that is finished has met no manifest that is in its way. -/
theorem Finished.not_illegible (hfree : here.fs.LinkFree) (hq : here.Finished home q)
    (hhome : here.fs.hasDirectory home = true) : ¬here.Illegible home := by
  rintro ⟨loc, hreached, name, hname, htext⟩
  obtain ⟨hv, hloc⟩ := hreached.visited hfree hq hhome
  obtain ⟨dir, hdir, hsettled⟩ := hq.settled hv hloc
  have hmem : dir.child name ∈ here.manifests dir := by
    rw [manifests, filesMatching_eq hfree hdir]
    exact List.mem_map_of_mem hname
  have hbad : here.legible (dir.child name) = false := by
    rw [legible_eq, FileSystem.readText_of_locate (locate_child_of_mem_filesAt hfree hdir hname),
      htext]
    rfl
  -- The first manifest that cannot be read ends the walk.
  have hfirst := List.head?_dropWhile_not here.legible (here.manifests dir)
  cases hhead : ((here.manifests dir).dropWhile here.legible).head? with
  | none =>
    have hall := List.dropWhile_eq_nil_iff.mp (List.head?_eq_none_iff.mp hhead) _ hmem
    rw [hbad] at hall
    cases hall
  | some manifest =>
    rw [hhead] at hfirst
    simp only [legible] at hfirst
    split at hfirst
    · cases hfirst
    · rename_i e hread
      have hleads : here.Leads dir false (.fault manifest (.manifestRead manifest e) false) :=
        .illegible hhead hread
      exact (hsettled _ rfl hleads).2 _ _ rfl

/-- Where the paths lead that were read, with the marks they were read with. -/
def readAt (here : Surroundings) (p : Progress) : List (Except FileError Location × Bool) :=
  p.reads.map fun read => (here.fs.locate read.1, read.2)

/-- **The reads of a walk that is finished are what is found.** -/
theorem mem_readAt_iff (hfree : here.fs.LinkFree) (hq : here.Finished home q)
    (hhome : here.fs.hasDirectory home = true) {v : Except FileError Location × Bool} :
    v ∈ here.readAt q ↔ ∃ loc, v.1 = .ok loc ∧ here.Found home loc v.2 := by
  rw [readAt, List.mem_map]
  constructor
  · rintro ⟨read, hread, rfl⟩
    exact hq.explored.reads read hread
  · rintro ⟨loc, hloc, hfound⟩
    obtain ⟨path, hread, hpath⟩ := hfound.read hfree hq hhome
    exact ⟨(path, v.2), hread, Prod.ext (hpath.trans hloc.symm) rfl⟩

/-- No file is read twice with the same mark. -/
theorem nodup_readAt (hp : here.Explored home p) (h : here.ReadOnce p) : (here.readAt p).Nodup := by
  have hspots := h.nodup
  rw [List.Nodup, List.pairwise_map] at hspots
  rw [readAt, List.Nodup, List.pairwise_map]
  refine hspots.imp_of_mem fun hr hs hne heq => hne ?_
  obtain ⟨hlocate, hmark⟩ := Prod.mk.inj heq
  obtain ⟨loc, hloc, -⟩ := hp.reads _ hr
  rw [spot_of_locate hloc, spot_of_locate (hlocate.symm.trans hloc), hmark]

theorem readOnce_walk {tasks : List Task} (hreads : p.reads = []) :
    here.ReadOnce (here.walk tasks p).1 :=
  (here.run_walk tasks p).preserves (fun _ t hq => hq.turn t)
    ⟨by simp [hreads], by simp [hreads]⟩

end Surroundings
end PluginHost
