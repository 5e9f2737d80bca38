import PluginHost.Proofs.Candidate.Best
import PluginHost.Walk

/-! # A walk, turn by turn

`Surroundings.turn` is all that a walk makes of one task: it remembers where the
task goes, looks at a module, puts tasks in front of the others, or fails.  What
a turn does to each part of a progress is one equation (`visited_turn`,
`reads_turn`, `index_turn`, `tasks_turn`, `fault_turn`), and later proofs use
these and not the definition.

A `Run` is a sequence of turns, and every walk is one (`run_walk`).  Facts about
walks are inductions over runs: `Run.invariant` carries a property of the
progress, together with a property of the tasks that are still to be done, to the
end of a run or to the turn that failed.  `Run.settled` and `Run.opened` describe
a run that did not fail: every task was taken care of, and whatever was remembered
was remembered by a turn whose own tasks were taken care of. -/
namespace PluginHost

/-- What a walk makes of one task. -/
structure Turn where
  progress : Progress
  /-- The tasks that come before the others. -/
  tasks : List Task
  /-- The failure that ends the walk. -/
  fault : Option HostError

namespace Surroundings

variable (here : Surroundings)

/-! ## Turns -/

/-- One turn of a walk. -/
def turn (p : Progress) : Task → Turn
  | .note event => ⟨p.note event, [], none⟩
  | .fault subject error wild =>
    if wild then ⟨p.note (.entrySkipped subject error), [], none⟩ else ⟨p, [], some error⟩
  | .directory dir wild =>
    if p.visited.contains (here.fs.spot dir, wild) then
      ⟨p.note (.directoryRepeated dir), [], none⟩
    else
      ⟨(p.visit (here.fs.spot dir) wild).note (.directoryEntered dir),
        here.itinerary dir wild, none⟩
  | .candidate path wild =>
    if p.visited.contains (here.fs.spot path, wild) then ⟨p, [], none⟩
    else
      let looked := here.lookAt path wild (p.visit (here.fs.spot path) wild)
      ⟨looked.1, [], looked.2⟩

/-- A walk takes one turn after the other. -/
theorem walk_cons (t : Task) (tasks : List Task) (p : Progress) :
    here.walk (t :: tasks) p =
      match (here.turn p t).fault with
      | none => here.walk ((here.turn p t).tasks ++ tasks) (here.turn p t).progress
      | some e => ((here.turn p t).progress, some e) := by
  cases t with
  | note event => rw [walk]; rfl
  | fault subject error wild => rw [walk]; cases wild <;> rfl
  | directory dir wild =>
    rw [walk, turn]
    split <;> rfl
  | candidate path wild =>
    rw [walk, turn]
    split
    · rfl
    · rcases here.lookAt path wild (p.visit (here.fs.spot path) wild) with ⟨q, _ | e⟩ <;> rfl

/-- A walk of at most so many turns.  It computes, which `walk` does not. -/
def walkWithin : Nat → List Task → Progress → Option (Progress × Option HostError)
  | 0, _, _ => none
  | _ + 1, [], p => some (p, none)
  | turns + 1, t :: tasks, p =>
    match (here.turn p t).fault with
    | none => walkWithin turns ((here.turn p t).tasks ++ tasks) (here.turn p t).progress
    | some e => some ((here.turn p t).progress, some e)

/-- A walk that ends within some turns ends as the walk does. -/
theorem walk_eq_of_walkWithin {turns : Nat} {tasks : List Task} {p : Progress}
    {result : Progress × Option HostError} (h : here.walkWithin turns tasks p = some result) :
    here.walk tasks p = result := by
  induction turns generalizing tasks p with
  | zero => cases h
  | succ turns ih =>
    cases tasks with
    | nil =>
      rw [walk]
      exact Option.some.inj h
    | cons t tasks =>
      rw [walkWithin] at h
      rw [walk_cons]
      split at h
      · exact ih h
      · exact Option.some.inj h

/-- The place and the mark under which a walk remembers a task that goes somewhere. -/
def visitOf : Task → Option (Spot × Bool)
  | .directory path wild | .candidate path wild => some (here.fs.spot path, wild)
  | .note _ | .fault _ _ _ => none

/-- What a walk remembers after a visit. -/
def remember (visited : List (Spot × Bool)) : Option (Spot × Bool) → List (Spot × Bool)
  | none => visited
  | some v => if visited.contains v then visited else v :: visited

theorem mem_remember {visited : List (Spot × Bool)} {visit : Option (Spot × Bool)}
    {v : Spot × Bool} : v ∈ remember visited visit ↔ v ∈ visited ∨ visit = some v := by
  cases visit with
  | none => simp [remember]
  | some w =>
    by_cases hw : w ∈ visited
    · rw [remember, if_pos (by simpa using hw)]
      refine ⟨.inl, ?_⟩
      rintro (h | h)
      · exact h
      · rw [← Option.some.inj h]; exact hw
    · rw [remember, if_neg (by simpa using hw), List.mem_cons, Option.some.injEq, or_comm, eq_comm]

/-- The description that a turn asks for. -/
def readsOf (p : Progress) : Task → List (Path × Bool)
  | .candidate path wild =>
    if p.visited.contains (here.fs.spot path, wild) then [] else [(path, wild)]
  | _ => []

/-- The candidate that a description makes. -/
def described (read : Path × Bool) : Except HostError Candidate := do
  Candidate.of read.1 (← here.source read.1) read.2

theorem described_of_source {path : Path} {m : Metadata} (h : here.source path = .ok m)
    (wild : Bool) : here.described (path, wild) = Candidate.of path m wild := by
  simp only [described, h, bind, Except.bind]

/-- The candidates among what was read, in the order of reading. -/
def candidatesOf (reads : List (Path × Bool)) : List Candidate :=
  reads.filterMap fun read => (here.described read).toOption

theorem assess_eq (path : Path) (wild : Bool) (index : CandidateIndex) :
    here.assess path wild index = (here.described (path, wild)).bind index.offer := by
  unfold assess described
  cases here.source path with
  | error e => rfl
  | ok m => simp only [bind, Except.bind]

@[simp] theorem reads_settle (path : Path) (p : Progress) (outcome : Offer × CandidateIndex) :
    (settle path p outcome).reads = p.reads := by
  rcases outcome with ⟨_ | _ | _ | _, index⟩ <;> rfl

@[simp] theorem index_settle (path : Path) (p : Progress) (outcome : Offer × CandidateIndex) :
    (settle path p outcome).index = outcome.2 := by
  rcases outcome with ⟨_ | _ | _ | _, index⟩ <;> rfl

/-- Looking at a module asks for its description, once. -/
theorem reads_lookAt (path : Path) (wild : Bool) (p : Progress) :
    (here.lookAt path wild p).1.reads = p.reads ++ [(path, wild)] := by
  cases h : here.assess path wild p.index with
  | ok outcome => simp [lookAt, h]
  | error e => cases wild <;> simp [lookAt, h, Progress.note]

/-- Looking at a module offers it, if its description makes a candidate. -/
theorem index_lookAt (path : Path) (wild : Bool) (p : Progress) :
    (here.lookAt path wild p).1.index = p.index.offerAll (here.candidatesOf [(path, wild)]) := by
  have hassess := here.assess_eq path wild p.index
  cases hd : here.described (path, wild) with
  | error e =>
    rw [hd] at hassess
    cases wild <;> simp [lookAt, hassess, Except.bind, candidatesOf, hd, Except.toOption,
      CandidateIndex.offerAll, Progress.note]
  | ok c =>
    rw [hd] at hassess
    cases ho : p.index.offer c with
    | error e =>
      cases wild <;> simp [lookAt, hassess, Except.bind, ho, candidatesOf, hd, Except.toOption,
        CandidateIndex.offerAll, CandidateIndex.offered, Progress.note]
    | ok outcome =>
      simp [lookAt, hassess, Except.bind, ho, candidatesOf, hd, Except.toOption,
        CandidateIndex.offerAll, CandidateIndex.offered]

/-- Looking at a module fails only without the mark. -/
theorem fault_lookAt {path : Path} {wild : Bool} {p : Progress} {e : HostError} :
    (here.lookAt path wild p).2 = some e ↔
      wild = false ∧ here.assess path false p.index = .error e := by
  cases h : here.assess path wild p.index with
  | ok outcome => cases wild <;> simp [lookAt, h]
  | error e => cases wild <;> simp [lookAt, h]

/-! ### What a turn does to each part of a progress -/

theorem visited_turn (p : Progress) (t : Task) :
    (here.turn p t).progress.visited = remember p.visited (here.visitOf t) := by
  cases t with
  | note event => rfl
  | fault subject error wild => cases wild <;> rfl
  | directory dir wild =>
    rw [turn, visitOf, remember]
    split <;> rfl
  | candidate path wild =>
    rw [turn, visitOf, remember]
    split
    · rfl
    · exact here.visited_lookAt path wild _

theorem reads_turn (p : Progress) (t : Task) :
    (here.turn p t).progress.reads = p.reads ++ here.readsOf p t := by
  cases t with
  | note event => exact (List.append_nil _).symm
  | fault subject error wild => cases wild <;> exact (List.append_nil _).symm
  | directory dir wild =>
    rw [turn]
    split <;> exact (List.append_nil _).symm
  | candidate path wild =>
    rw [turn, readsOf]
    split
    · exact (List.append_nil _).symm
    · exact here.reads_lookAt path wild _

theorem index_turn (p : Progress) (t : Task) :
    (here.turn p t).progress.index = p.index.offerAll (here.candidatesOf (here.readsOf p t)) := by
  cases t with
  | note event => rfl
  | fault subject error wild => cases wild <;> rfl
  | directory dir wild =>
    rw [turn]
    split <;> rfl
  | candidate path wild =>
    rw [turn, readsOf]
    split
    · rfl
    · exact here.index_lookAt path wild _

/-- Only a directory that is entered leads to further tasks. -/
theorem tasks_turn (p : Progress) (t : Task) :
    (here.turn p t).tasks = match t with
      | .directory dir wild =>
        if p.visited.contains (here.fs.spot dir, wild) then [] else here.itinerary dir wild
      | _ => [] := by
  cases t with
  | note event => rfl
  | fault subject error wild => cases wild <;> rfl
  | directory dir wild =>
    rw [turn]
    split
    · rename_i h; simp only [h, if_true]
    · rename_i h; simp only [h]; rfl
  | candidate path wild =>
    rw [turn]
    split <;> rfl

/-- A turn fails at a fault or at a module, and only without the mark. -/
theorem fault_turn {p : Progress} {t : Task} {e : HostError} :
    (here.turn p t).fault = some e ↔
      (∃ subject, t = .fault subject e false) ∨
      ∃ path, t = .candidate path false ∧ (here.fs.spot path, false) ∉ p.visited ∧
        here.assess path false p.index = .error e := by
  cases t with
  | note event => simp [turn]
  | fault subject error wild => cases wild <;> simp [turn]
  | directory dir wild =>
    rw [turn]
    split <;> simp
  | candidate path wild =>
    rw [turn]
    split
    · rename_i h
      simp only [List.contains_iff_mem] at h
      constructor
      · intro hf; cases hf
      · rintro (⟨subject, heq⟩ | ⟨path', heq, hnew, -⟩)
        · cases heq
        · cases heq; exact absurd h hnew
    · rename_i h
      simp only [List.contains_iff_mem] at h
      rw [fault_lookAt]
      constructor
      · rintro ⟨rfl, he⟩
        exact .inr ⟨path, rfl, h, he⟩
      · rintro (⟨subject, heq⟩ | ⟨path', heq, -, he⟩)
        · cases heq
        · cases heq; exact ⟨rfl, he⟩

/-- The tasks of a turn are from the itinerary of a directory that it remembers. -/
theorem mem_tasks_turn {p : Progress} {t u : Task} (hu : u ∈ (here.turn p t).tasks) :
    ∃ dir wild, t = .directory dir wild ∧ u ∈ here.itinerary dir wild ∧
      (here.fs.spot dir, wild) ∈ (here.turn p t).progress.visited := by
  rw [tasks_turn] at hu
  cases t with
  | directory dir wild =>
    refine ⟨dir, wild, rfl, ?_, ?_⟩
    · simp only at hu
      split at hu
      · cases hu
      · exact hu
    · rw [visited_turn, mem_remember]
      exact .inr rfl
  | note event => cases hu
  | fault subject error wild => cases hu
  | candidate path wild => cases hu

/-! ## Runs -/

/-- A sequence of turns that works off a list of tasks, and how it ends. -/
inductive Run : List Task → Progress → Progress × Option HostError → Prop where
  | done (p : Progress) : Run [] p (p, none)
  | stop {t : Task} {tasks : List Task} {p : Progress} {e : HostError}
      (hf : (here.turn p t).fault = some e) :
      Run (t :: tasks) p ((here.turn p t).progress, some e)
  | next {t : Task} {tasks : List Task} {p : Progress} {result : Progress × Option HostError}
      (hf : (here.turn p t).fault = none)
      (rest : Run ((here.turn p t).tasks ++ tasks) (here.turn p t).progress result) :
      Run (t :: tasks) p result

/-- Every walk is a run. -/
theorem run_walk (tasks : List Task) (p : Progress) :
    here.Run tasks p (here.walk tasks p) := by
  have one : ∀ t tasks p, ((here.turn p t).fault = none →
      here.Run ((here.turn p t).tasks ++ tasks) (here.turn p t).progress
        (here.walk ((here.turn p t).tasks ++ tasks) (here.turn p t).progress)) →
      here.Run (t :: tasks) p (here.walk (t :: tasks) p) := by
    intro t tasks p rest
    rw [walk_cons]
    cases hf : (here.turn p t).fault with
    | none => exact .next hf (rest hf)
    | some e => exact .stop hf
  induction tasks, p using walk.induct here with
  | case1 p => rw [walk]; exact .done p
  | case2 event tasks p ih => exact one _ _ _ fun _ => ih
  | case3 subject error tasks p ih => exact one _ _ _ fun _ => ih
  | case4 subject error wild tasks p hw =>
    refine one _ _ _ fun hf => ?_
    rw [turn, if_neg hw] at hf
    cases hf
  | case5 dir wild tasks p hv ih =>
    refine one _ _ _ fun _ => ?_
    rw [turn, if_pos hv]
    exact ih
  | case6 dir wild tasks p hv ih =>
    refine one _ _ _ fun _ => ?_
    rw [turn, if_neg hv]
    exact ih
  | case7 path wild tasks p hv ih =>
    refine one _ _ _ fun _ => ?_
    rw [turn, if_pos hv]
    exact ih
  | case8 path wild tasks p hv q hq ih =>
    refine one _ _ _ fun _ => ?_
    rw [turn, if_neg hv, hq]
    exact ih
  | case9 path wild tasks p hv q error hq =>
    refine one _ _ _ fun hf => ?_
    rw [turn, if_neg hv, hq] at hf
    cases hf

variable {here} {tasks : List Task} {p : Progress} {result : Progress × Option HostError}

/-- **What turns keep, a run keeps.**  `P` is a property of the progress, and `R`
one of the tasks that are still to be done; a failure comes from a task with `R`,
met in a progress with `P`. -/
theorem Run.invariant {P : Progress → Prop} {R : Progress → Task → Prop}
    (keep : ∀ p t, P p → R p t → P (here.turn p t).progress)
    (carry : ∀ p t u, R p u → R (here.turn p t).progress u)
    (spawn : ∀ p t, P p → R p t → ∀ u ∈ (here.turn p t).tasks, R (here.turn p t).progress u)
    (run : here.Run tasks p result) (hp : P p) (hr : ∀ t ∈ tasks, R p t) :
    P result.1 ∧ ∀ e, result.2 = some e → ∃ q t, P q ∧ R q t ∧
      (here.turn q t).fault = some e ∧ result.1 = (here.turn q t).progress := by
  induction run with
  | done p => exact ⟨hp, fun e he => by cases he⟩
  | stop hf =>
    refine ⟨keep _ _ hp (hr _ List.mem_cons_self), fun e he => ?_⟩
    exact ⟨_, _, hp, hr _ List.mem_cons_self, hf.trans he, rfl⟩
  | next hf rest ih =>
    have ht := hr _ List.mem_cons_self
    refine ih (keep _ _ hp ht) fun u hu => ?_
    rcases List.mem_append.mp hu with hu | hu
    · exact spawn _ _ hp ht u hu
    · exact carry _ _ u (hr u (List.mem_cons_of_mem _ hu))

/-- What every turn keeps, a run keeps. -/
theorem Run.preserves {P : Progress → Prop} (keep : ∀ p t, P p → P (here.turn p t).progress)
    (run : here.Run tasks p result) (hp : P p) : P result.1 :=
  (run.invariant (R := fun _ _ => True) (fun p t hp _ => keep p t hp) (fun _ _ _ _ => trivial)
    (fun _ _ _ _ _ _ => trivial) hp fun _ _ => trivial).1

/-- Nothing is forgotten. -/
theorem Run.visited_subset (run : here.Run tasks p result) : p.visited ⊆ result.1.visited := by
  refine run.preserves (P := fun q => p.visited ⊆ q.visited) (fun q t hq v hv => ?_)
    (List.Subset.refl _)
  rw [visited_turn, mem_remember]
  exact .inl (hq hv)

/-- The host is the same at every turn. -/
theorem host_turn (p : Progress) (t : Task) :
    (here.turn p t).progress.index.host = p.index.host := by
  rw [index_turn, CandidateIndex.host_offerAll]

theorem Run.host_eq (run : here.Run tasks p result) : result.1.index.host = p.index.host :=
  run.preserves (P := fun q => q.index.host = p.index.host)
    (fun q t hq => (host_turn q t).trans hq) rfl

/-- The index holds what was read, offered in the order of reading. -/
theorem Run.index_eq (run : here.Run tasks p result) :
    ∃ reads, result.1.reads = p.reads ++ reads ∧
      result.1.index = p.index.offerAll (here.candidatesOf reads) := by
  refine run.preserves (P := fun q => ∃ reads, q.reads = p.reads ++ reads ∧
    q.index = p.index.offerAll (here.candidatesOf reads)) ?_ ⟨[], (List.append_nil _).symm, rfl⟩
  rintro q t ⟨reads, hreads, hindex⟩
  refine ⟨reads ++ here.readsOf q t, ?_, ?_⟩
  · rw [reads_turn, hreads, List.append_assoc]
  · rw [index_turn, hindex, candidatesOf, candidatesOf, candidatesOf, List.filterMap_append,
      CandidateIndex.offerAll, CandidateIndex.offerAll, CandidateIndex.offerAll, List.foldl_append]

/-- What was read stands under places that are remembered, each once. -/
structure ReadOnce (p : Progress) : Prop where
  nodup : (p.reads.map fun read => (here.fs.spot read.1, read.2)).Nodup
  remembered : ∀ read ∈ p.reads, (here.fs.spot read.1, read.2) ∈ p.visited

theorem ReadOnce.turn (h : here.ReadOnce p) (t : Task) :
    here.ReadOnce (here.turn p t).progress := by
  have hold : ∀ read ∈ p.reads,
      (here.fs.spot read.1, read.2) ∈ (here.turn p t).progress.visited := by
    intro read hread
    rw [visited_turn, mem_remember]
    exact .inl (h.remembered read hread)
  by_cases hnone : here.readsOf p t = []
  · have hreads := here.reads_turn p t
    rw [hnone, List.append_nil] at hreads
    exact ⟨hreads ▸ h.nodup, hreads ▸ hold⟩
  · obtain ⟨path, wild, rfl, hnew⟩ : ∃ path wild, t = .candidate path wild ∧
        (here.fs.spot path, wild) ∉ p.visited := by
      cases t with
      | candidate path wild =>
        refine ⟨path, wild, rfl, fun hv => hnone ?_⟩
        rw [readsOf, if_pos (by simpa using hv)]
      | _ => exact absurd rfl hnone
    have hreads :
        (here.turn p (.candidate path wild)).progress.reads = p.reads ++ [(path, wild)] := by
      rw [reads_turn, readsOf, if_neg (by simpa using hnew)]
    refine ⟨?_, fun read hread => ?_⟩
    · rw [hreads, List.map_append, List.nodup_append]
      refine ⟨h.nodup, List.nodup_singleton _, ?_⟩
      rintro v hv w hw rfl
      obtain ⟨read, hread, hv'⟩ := List.mem_map.mp hv
      rw [List.map_singleton, List.mem_singleton] at hw
      exact hnew (hw ▸ hv' ▸ h.remembered read hread)
    · rw [hreads] at hread
      rcases List.mem_append.mp hread with hread | hread
      · exact hold read hread
      · rw [List.mem_singleton.mp hread, visited_turn, mem_remember]
        exact .inr rfl

/-! ### Runs that do not fail -/

/-- A task was taken care of, as far as it is remembered. -/
def Settled (here : Surroundings) (visited : List (Spot × Bool)) (t : Task) : Prop :=
  (∀ v, here.visitOf t = some v → v ∈ visited) ∧ ∀ subject e, t ≠ .fault subject e false

/-- What the turns that do not fail keep, a run that does not fail keeps. -/
theorem Run.preserves_of_not_fault {P : Progress → Prop}
    (keep : ∀ p t, P p → (here.turn p t).fault = none → P (here.turn p t).progress)
    {q : Progress} (run : here.Run tasks p (q, none)) (hp : P p) : P q := by
  generalize hresult : (q, none) = result at run
  induction run with
  | done p => cases hresult; exact hp
  | stop hf => cases hresult
  | next hf rest ih => exact ih (keep _ _ hp hf) hresult

/-- A run that does not fail takes care of every task. -/
theorem Run.settled {q : Progress} (run : here.Run tasks p (q, none)) :
    ∀ t ∈ tasks, here.Settled q.visited t := by
  generalize hresult : (q, none) = result at run
  induction run with
  | done p => exact fun t ht => absurd ht List.not_mem_nil
  | stop hf => cases hresult
  | @next t tasks p result hf rest ih =>
    subst hresult
    intro u hu
    rcases List.mem_cons.mp hu with rfl | hu
    · refine ⟨fun v hv => ?_, fun subject e => ?_⟩
      · apply rest.visited_subset
        rw [visited_turn, mem_remember]
        exact .inr hv
      · rintro rfl
        rw [here.fault_turn.mpr (.inl ⟨subject, rfl⟩)] at hf
        cases hf
    · exact ih rfl u (List.mem_append_right _ hu)

/-- In a run that ended with `last`, the turn on `t` after `before` was the first to
remember the visit `v`, and the tasks it led to were taken care of. -/
structure Opened (here : Surroundings) (last before : Progress) (t : Task) (v : Spot × Bool) :
    Prop where
  visit : here.visitOf t = some v
  new : v ∉ before.visited
  settled : ∀ u ∈ (here.turn before t).tasks, here.Settled last.visited u
  read : here.readsOf before t ⊆ last.reads

/-- In a run that does not fail, whatever is remembered was opened by some turn. -/
theorem Run.opened {q : Progress} (run : here.Run tasks p (q, none)) :
    ∀ v ∈ q.visited, v ∈ p.visited ∨ ∃ before t, here.Opened q before t v := by
  generalize hresult : (q, none) = result at run
  induction run with
  | done p => cases hresult; exact fun v hv => .inl hv
  | stop hf => cases hresult
  | @next t tasks p result hf rest ih =>
    subst hresult
    intro v hv
    rcases ih rfl v hv with hold | hopened
    · rw [visited_turn, mem_remember] at hold
      by_cases hp : v ∈ p.visited
      · exact .inl hp
      · refine .inr ⟨p, t, hold.resolve_left hp, hp, ?_, ?_⟩
        · exact fun u hu => rest.settled u (List.mem_append_left _ hu)
        · obtain ⟨reads, hreads, -⟩ := rest.index_eq
          intro read hread
          rw [hreads, reads_turn]
          exact List.mem_append_left _ (List.mem_append_right _ hread)
    · exact .inr hopened

end Surroundings
end PluginHost
