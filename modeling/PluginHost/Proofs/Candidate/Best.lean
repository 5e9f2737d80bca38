import Mathlib.Data.List.Nodup
import PluginHost.Candidate
import PluginHost.Proofs.Lists
import PluginHost.Proofs.Version.Order

/-! # An index holds the best copies

`Candidate.cmp` orders the copies of a module: a higher version is above a lower
one, and between equal versions a copy that somebody wrote out is above one that
a wildcard found.  It is a total preorder, and `Candidate.beats` is its strict
part.

An index that was offered candidates one after the other holds, of every module
with a copy that the host can use, the earliest among the highest of these
copies.  The invariant is `KeepsBest`: one offer keeps it (`KeepsBest.store`), so
any sequence of offers does (`keepsBest_offerAll`).  Which version is held, and
whether it is marked, hangs on the set of the offered copies only
(`standing_eq`), so their order does not matter. -/
namespace PluginHost

open Std

namespace Candidate

/-! ## The order of copies -/

/-- The order of the copies of a module. -/
def cmp (c d : Candidate) : Ordering :=
  (c.version.cmp d.version).then (compare d.fromWildcard c.fromWildcard)

instance : TransCmp cmp where
  eq_swap {c d} := by
    rw [cmp, cmp, Ordering.swap_then, ← @OrientedCmp.eq_swap _ Version.cmp _ _ _,
      ← OrientedOrd.eq_swap]
  isLE_trans {b c d} hbc hcd := by
    rw [cmp, Ordering.isLE_then_iff_and] at hbc hcd ⊢
    refine ⟨TransCmp.isLE_trans hbc.1 hcd.1, ?_⟩
    rcases hbc.2 with hlt | hle
    · exact .inl (TransCmp.lt_of_lt_of_isLE hlt hcd.1)
    · rcases hcd.2 with hlt' | hle'
      · exact .inl (TransCmp.lt_of_isLE_of_lt hbc.1 hlt')
      · exact .inr (TransOrd.isLE_trans hle' hle)

/-- A copy takes the place of those that are strictly below it. -/
theorem beats_iff {c d : Candidate} : c.beats d = true ↔ c.cmp d = .gt := by
  unfold beats cmp
  cases c.version.cmp d.version <;> cases c.fromWildcard <;> cases d.fromWildcard <;> decide

/-- Copies on one level have the same version and the same mark. -/
theorem eq_of_cmp_eq {c d : Candidate} (h : c.cmp d = .eq) :
    c.version = d.version ∧ c.fromWildcard = d.fromWildcard := by
  obtain ⟨hv, hw⟩ := Ordering.then_eq_eq.mp h
  exact ⟨LawfulEqCmp.eq_of_compare hv, (LawfulEqOrd.eq_of_compare hw).symm⟩

/-- What a copy that was written out is not above of has a higher version, or the
same version and was written out as well. -/
theorem cmp_ne_gt_of_writtenOut {c d : Candidate} (hc : c.fromWildcard = false)
    (h : c.cmp d ≠ .gt) :
    d.version.cmp c.version = .gt ∨ d.version = c.version ∧ d.fromWildcard = false := by
  unfold cmp at h
  cases hv : c.version.cmp d.version with
  | lt => exact .inl (OrientedCmp.gt_of_lt hv)
  | gt =>
    rw [hv] at h
    exact absurd rfl h
  | eq =>
    refine .inr ⟨(LawfulEqCmp.eq_of_compare hv).symm, ?_⟩
    rw [hv, hc] at h
    cases hd : d.fromWildcard with
    | false => rfl
    | true =>
      rw [hd] at h
      exact absurd rfl h

/-- The level of a copy is its version and its mark. -/
theorem cmp_congr {c c' d d' : Candidate} (hc : c.version = c'.version)
    (hcw : c.fromWildcard = c'.fromWildcard) (hd : d.version = d'.version)
    (hdw : d.fromWildcard = d'.fromWildcard) : c.cmp d = c'.cmp d' := by
  rw [cmp, cmp, hc, hcw, hd, hdw]

/-- Two candidates are copies of the same module on the same level. -/
structure Alike (c d : Candidate) : Prop where
  identity : c.identity = d.identity
  version : c.version = d.version
  mark : c.fromWildcard = d.fromWildcard

theorem Alike.refl (c : Candidate) : c.Alike c := ⟨rfl, rfl, rfl⟩

/-- Whether no other copy of the module is above this one. -/
def isBestOf (offers : List Candidate) (c : Candidate) : Bool :=
  offers.all fun d => d.identity != c.identity || d.cmp c != .gt

theorem isBestOf_iff {offers : List Candidate} {c : Candidate} :
    c.isBestOf offers = true ↔ ∀ d ∈ offers, d.identity = c.identity → d.cmp c ≠ .gt := by
  simp [isBestOf, List.all_eq_true, Decidable.imp_iff_not_or]

/-- The copy is offered, all copies before it are below it, and none behind it is
above it. -/
def FirstBest (offers : List Candidate) (c : Candidate) : Prop :=
  ∃ before after, offers = before ++ c :: after ∧
    (∀ d ∈ before, d.identity = c.identity → d.cmp c = .lt) ∧
    ∀ d ∈ after, d.identity = c.identity → d.cmp c ≠ .gt

namespace FirstBest

variable {offers : List Candidate} {c : Candidate}

theorem mem (h : FirstBest offers c) : c ∈ offers := by
  obtain ⟨before, after, rfl, -, -⟩ := h
  exact List.mem_append_right _ List.mem_cons_self

/-- Nothing that was offered is above it. -/
theorem not_above (h : FirstBest offers c) {d : Candidate} (hd : d ∈ offers)
    (hi : d.identity = c.identity) : d.cmp c ≠ .gt := by
  obtain ⟨before, after, rfl, hbefore, hafter⟩ := h
  rcases List.mem_append.mp hd with hd | hd
  · rw [hbefore d hd hi]; decide
  · rcases List.mem_cons.mp hd with rfl | hd
    · rw [@ReflCmp.compare_self _ cmp _ _]; decide
    · exact hafter d hd hi

/-- A later offer that is not above it changes nothing. -/
theorem concat (h : FirstBest offers c) {d : Candidate}
    (hd : d.identity = c.identity → d.cmp c ≠ .gt) : FirstBest (offers ++ [d]) c := by
  obtain ⟨before, after, rfl, hbefore, hafter⟩ := h
  refine ⟨before, after ++ [d], by simp, hbefore, fun e he => ?_⟩
  rcases List.mem_append.mp he with he | he
  · exact hafter e he
  · rw [List.mem_singleton.mp he]; exact hd

/-- A new offer that is above all copies before it is the best. -/
theorem last {d : Candidate} (h : ∀ e ∈ offers, e.identity = d.identity → e.cmp d = .lt) :
    FirstBest (offers ++ [d]) d :=
  ⟨offers, [], rfl, h, fun _ he => absurd he List.not_mem_nil⟩

/-- It is the first of the offers that nothing is above of. -/
theorem find?_eq (h : FirstBest offers c) :
    (offers.find? fun d => d.identity == c.identity && d.isBestOf offers) = some c := by
  have hbest : c.isBestOf offers = true := isBestOf_iff.mpr fun d hd hi => h.not_above hd hi
  have hmem : c ∈ offers := h.mem
  obtain ⟨before, after, heq, hbefore, -⟩ := h
  refine List.find?_eq_some_iff_append.mpr ⟨by simp [hbest], before, after, heq, fun d hd => ?_⟩
  -- An earlier copy is below `c`, so it is not among the highest.
  by_cases hi : d.identity = c.identity
  · have habove : c.cmp d = .gt := OrientedCmp.gt_of_lt (hbefore d hd hi)
    have hnot : d.isBestOf offers = false := by
      rw [Bool.eq_false_iff]
      exact fun hb => isBestOf_iff.mp hb c hmem hi.symm habove
    simp [hnot]
  · simp [hi]

end FirstBest
end Candidate

namespace CandidateIndex

variable {index : CandidateIndex} {offers : List Candidate} {c : Candidate}

/-! ## Offers that are refused -/

/-- An index refuses what its host cannot use. -/
theorem refused?_eq_none_iff :
    index.refused? c = none ↔ index.host.family.accepts c.runtime = true := by
  cases h : c.runtime with
  | none => simp [refused?, h, RuntimeFamily.accepts]
  | some target =>
    cases ha : index.host.family.accepts (some target) <;> simp [refused?, h, ha]

/-- What is refused was built for some runtime. -/
theorem refused?_eq_some (h : index.host.family.accepts c.runtime = false) :
    ∃ target, c.runtime = some target ∧ index.refused? c = some target := by
  cases hr : c.runtime with
  | none => simp [hr, RuntimeFamily.accepts] at h
  | some target =>
    rw [hr] at h
    exact ⟨target, rfl, by simp [refused?, hr, h]⟩

/-- The runtime that is refused is the runtime of the candidate. -/
theorem of_refused?_eq_some {target : RuntimeDescriptor} (h : index.refused? c = some target) :
    c.runtime = some target ∧ index.host.family.accepts (some target) = false := by
  obtain ⟨hruntime, haccepts⟩ := Option.filter_eq_some_iff.mp h
  exact ⟨hruntime, by simpa using haccepts⟩

/-- An offer fails when the host cannot use what somebody wrote out. -/
theorem offer_eq_error {e : HostError} (h : index.offer c = .error e) :
    c.fromWildcard = false ∧ ∃ target, c.runtime = some target ∧
      index.host.family.accepts (some target) = false ∧
      e = .incompatibleRuntime c.path target index.host := by
  unfold offer at h
  split at h
  · cases h
  · rename_i target hrefused
    obtain ⟨hruntime, haccepts⟩ := of_refused?_eq_some hrefused
    split at h
    · cases h
    · rename_i hwritten
      exact ⟨Bool.eq_false_iff.mpr hwritten, target, hruntime, haccepts, (Except.error.inj h).symm⟩

/-- The index after an offer, whatever became of it. -/
def offered (c : Candidate) (index : CandidateIndex) : CandidateIndex :=
  match index.offer c with
  | .ok (_, index) => index
  | .error _ => index

/-- The index after several offers. -/
def offerAll (offers : List Candidate) (index : CandidateIndex) : CandidateIndex :=
  offers.foldl (fun index c => index.offered c) index

/-- What the host can use is stored. -/
theorem offered_of_accepts (h : index.host.family.accepts c.runtime = true) :
    index.offered c = (index.store c).2 := by
  rw [offered, offer, refused?_eq_none_iff.mpr h]

/-- An offer that is refused changes nothing. -/
theorem offered_of_not_accepts (h : index.host.family.accepts c.runtime = false) :
    index.offered c = index := by
  obtain ⟨target, -, hr⟩ := refused?_eq_some h
  rw [offered, offer, hr]
  cases c.fromWildcard <;> rfl

@[simp] theorem host_store : (index.store c).2.host = index.host := by
  unfold store
  split
  · rfl
  · split <;> rfl

@[simp] theorem host_offered : (index.offered c).host = index.host := by
  cases h : index.host.family.accepts c.runtime with
  | true => rw [offered_of_accepts h, host_store]
  | false => rw [offered_of_not_accepts h]

@[simp] theorem host_offerAll : (index.offerAll offers).host = index.host := by
  induction offers generalizing index with
  | nil => rfl
  | cons c offers ih => exact ih.trans host_offered

/-! ## The copy that is held -/

/-- The copy of a module that an index holds. -/
def copy? (index : CandidateIndex) (name : String) : Option Candidate :=
  index.candidates.find? (·.identity == name)

theorem copy?_eq_some {name : String} (h : index.copy? name = some c) :
    c ∈ index.candidates ∧ c.identity = name := by
  rw [copy?] at h
  exact ⟨List.mem_of_find?_eq_some h, by simpa using List.find?_some h⟩

theorem copy?_eq_none {name : String} (h : index.copy? name = none) :
    ∀ c ∈ index.candidates, c.identity ≠ name :=
  fun c hc => by simpa using List.find?_eq_none.mp h c hc

/-- The version and the mark of the copy of a module that an index holds. -/
def standing (index : CandidateIndex) (name : String) : Option (Version × Bool) :=
  (index.copy? name).map fun c => (c.version, c.fromWildcard)

/-- The modules stand in the order of their first offers, and of each the index
holds the earliest of its highest copies. -/
structure KeepsBest (offers : List Candidate) (index : CandidateIndex) : Prop where
  names : index.candidates.map (·.identity) = (offers.map (·.identity)).eraseDups
  best : ∀ c ∈ index.candidates, c.FirstBest offers

namespace KeepsBest

theorem empty (host : HostRuntime) : KeepsBest [] (.empty host) :=
  ⟨rfl, fun _ hc => absurd hc List.not_mem_nil⟩

/-- A module is held once it was offered. -/
theorem exists_of_mem (h : KeepsBest offers index) {d : Candidate} (hd : d ∈ offers) :
    ∃ c ∈ index.candidates, c.identity = d.identity := by
  have hmem : d.identity ∈ index.candidates.map (·.identity) := by
    rw [h.names, List.mem_eraseDups]
    exact List.mem_map_of_mem hd
  exact List.mem_map.mp hmem

/-- A copy that replaces another leaves the names as they are. -/
theorem map_identity_replace (c : Candidate) (held : List Candidate) :
    (held.map fun d => if c.sameModule d then c else d).map (·.identity)
      = held.map (·.identity) := by
  rw [List.map_map]
  refine List.map_congr_left fun d _ => ?_
  by_cases hs : c.sameModule d = true
  · simpa [hs] using LawfulBEq.eq_of_beq hs
  · simp [hs]

/-- A module that was not offered before is held from now on. -/
theorem append (h : KeepsBest offers index) (hnew : ∀ d ∈ offers, d.identity ≠ c.identity) :
    KeepsBest (offers ++ [c]) { index with candidates := index.candidates ++ [c] } := by
  refine ⟨?_, fun d hd => ?_⟩
  · rw [List.map_append, List.map_append, h.names]
    refine (Lists.eraseDups_concat_of_not_mem fun hmem => ?_).symm
    obtain ⟨d, hd, hi⟩ := List.mem_map.mp hmem
    exact hnew d hd hi
  · rcases List.mem_append.mp hd with hd | hd
    · refine (h.best d hd).concat fun hi => ?_
      exact absurd hi.symm (hnew d (h.best d hd).mem)
    · rw [List.mem_singleton.mp hd]
      exact .last fun e he hi => absurd hi (hnew e he)

variable {old : Candidate}

/-- A further copy of a module that is held adds no name. -/
theorem names_of_copy (h : KeepsBest offers index) (hold : old ∈ index.candidates)
    (hsame : c.identity = old.identity) :
    index.candidates.map (·.identity) = ((offers ++ [c]).map (·.identity)).eraseDups := by
  rw [h.names, List.map_append]
  refine (Lists.eraseDups_concat_of_mem ?_).symm
  exact List.mem_map.mpr ⟨old, (h.best old hold).mem, hsame.symm⟩

/-- A copy that is above the copy that is held takes its place. -/
theorem replace (h : KeepsBest offers index) (hold : old ∈ index.candidates)
    (hsame : c.identity = old.identity) (hlt : old.cmp c = .lt) :
    KeepsBest (offers ++ [c]) { index with
      candidates := index.candidates.map fun d => if c.sameModule d then c else d } := by
  refine ⟨(map_identity_replace c _).trans (h.names_of_copy hold hsame), fun d hd => ?_⟩
  obtain ⟨e, he, rfl⟩ := List.mem_map.mp hd
  by_cases hs : c.sameModule e = true
  · rw [if_pos hs]
    refine .last fun f hfo hi => ?_
    -- All earlier copies are at most as high as `old`, and `c` is above it.
    have hle : (f.cmp old).isLE = true :=
      Ordering.isLE_iff_ne_gt.mpr ((h.best old hold).not_above hfo (hi.trans hsame))
    exact TransCmp.lt_of_isLE_of_lt hle hlt
  · rw [if_neg hs]
    refine (h.best e he).concat fun hi => ?_
    exact absurd (by simp [Candidate.sameModule, hi]) hs

/-- A copy that is not above the copy that is held changes nothing. -/
theorem keep (h : KeepsBest offers index) (hold : old ∈ index.candidates)
    (hsame : c.identity = old.identity) (hnot : c.cmp old ≠ .gt) :
    KeepsBest (offers ++ [c]) index := by
  refine ⟨h.names_of_copy hold hsame, fun d hd => (h.best d hd).concat fun hi => ?_⟩
  -- The names in the index are distinct, so `d` is the copy that was compared.
  have hnodup : (index.candidates.map (·.identity)).Nodup := by
    rw [h.names]
    exact Lists.nodup_eraseDups _
  have hd' : d = old := List.inj_on_of_nodup_map hnodup hd hold (hi.symm.trans hsame)
  rw [hd']
  exact hnot

/-- **One offer that is stored keeps the best copies.**  The index holds no copy of
the module yet, or one that the new copy is above of, or one that it is not. -/
theorem store (h : KeepsBest offers index) : KeepsBest (offers ++ [c]) (index.store c).2 := by
  cases hf : index.candidates.find? c.sameModule with
  | none =>
    have hstore : (index.store c).2 = { index with candidates := index.candidates ++ [c] } := by
      simp [CandidateIndex.store, hf]
    rw [hstore]
    refine h.append fun d hd hi => ?_
    obtain ⟨held, hheld, hname⟩ := h.exists_of_mem hd
    have hno := List.find?_eq_none.mp hf held hheld
    exact hno (by simp [Candidate.sameModule, hname, hi])
  | some old =>
    have hold : old ∈ index.candidates := List.mem_of_find?_eq_some hf
    have hcopy : c.sameModule old = true := List.find?_some hf
    have hsame : c.identity = old.identity := LawfulBEq.eq_of_beq hcopy
    by_cases hb : c.beats old = true
    · have hstore : (index.store c).2 = { index with
          candidates := index.candidates.map fun d => if c.sameModule d then c else d } := by
        simp [CandidateIndex.store, hf, hb]
      rw [hstore]
      exact h.replace hold hsame (OrientedCmp.lt_of_gt (Candidate.beats_iff.mp hb))
    · have hstore : (index.store c).2 = index := by simp [CandidateIndex.store, hf, hb]
      rw [hstore]
      exact h.keep hold hsame fun hgt => hb (Candidate.beats_iff.mpr hgt)

/-- One offer keeps the best copies of what the host can use. -/
theorem offered {seen : List Candidate} (h : KeepsBest seen index) :
    KeepsBest (seen ++ [c].filter fun c => index.host.family.accepts c.runtime)
      (index.offered c) := by
  cases ha : index.host.family.accepts c.runtime with
  | true =>
    have hone : ([c].filter fun c => index.host.family.accepts c.runtime) = [c] := by simp [ha]
    rw [hone, offered_of_accepts ha]
    exact h.store
  | false =>
    have hnone : ([c].filter fun c => index.host.family.accepts c.runtime) = [] := by simp [ha]
    rw [hnone, List.append_nil, offered_of_not_accepts ha]
    exact h

/-- Any sequence of offers keeps the best copies of what the host can use. -/
theorem offerAll (offers : List Candidate) {seen : List Candidate} (h : KeepsBest seen index) :
    KeepsBest (seen ++ offers.filter fun c => index.host.family.accepts c.runtime)
      (index.offerAll offers) := by
  induction offers generalizing seen index with
  | nil => rw [List.filter_nil, List.append_nil]; exact h
  | cons c offers ih =>
    have hrest := ih (h.offered (c := c))
    rw [host_offered, List.append_assoc, ← List.filter_append] at hrest
    exact hrest

/-- The copy that is held is the first among the highest offers. -/
theorem copy?_eq (h : KeepsBest offers index) (name : String) :
    index.copy? name = offers.find? fun c => c.identity == name && c.isBestOf offers := by
  cases hc : index.copy? name with
  | some c =>
    obtain ⟨hmem, rfl⟩ := copy?_eq_some hc
    exact ((h.best c hmem).find?_eq).symm
  | none =>
    refine (List.find?_eq_none.mpr fun d hd => ?_).symm
    obtain ⟨held, hheld, hname⟩ := h.exists_of_mem hd
    have hno := copy?_eq_none hc held hheld
    simp [← hname, hno]

/-- Which version is held, and with which mark, hangs on the set of offers only. -/
theorem standing_eq {index' : CandidateIndex} {offers' : List Candidate}
    (h : KeepsBest offers index) (h' : KeepsBest offers' index')
    (hsub : ∀ c ∈ offers, ∃ c' ∈ offers', c.Alike c')
    (hsub' : ∀ c' ∈ offers', ∃ c ∈ offers, c'.Alike c) (name : String) :
    index.standing name = index'.standing name := by
  unfold standing
  cases hc : index.copy? name with
  | none =>
    cases hd : index'.copy? name with
    | none => rfl
    | some d =>
      exfalso
      obtain ⟨hmem, rfl⟩ := copy?_eq_some hd
      obtain ⟨e, he, hde⟩ := hsub' d (h'.best d hmem).mem
      obtain ⟨held, hheld, hi⟩ := h.exists_of_mem he
      exact copy?_eq_none hc held hheld (hi.trans hde.identity.symm)
  | some c =>
    obtain ⟨hmem, rfl⟩ := copy?_eq_some hc
    have hbest := h.best c hmem
    obtain ⟨c', hc', hcc'⟩ := hsub c hbest.mem
    cases hd : index'.copy? c.identity with
    | none =>
      exfalso
      obtain ⟨held, hheld, hi⟩ := h'.exists_of_mem hc'
      exact copy?_eq_none hd held hheld (hi.trans hcc'.identity.symm)
    | some d =>
      obtain ⟨hmem', hsame⟩ := copy?_eq_some hd
      have hbest' := h'.best d hmem'
      obtain ⟨d', hd', hdd'⟩ := hsub' d hbest'.mem
      -- Each is a copy among the other's offers, so neither is above the other.
      have hnotd : d.cmp c ≠ .gt :=
        Candidate.cmp_congr hdd'.version hdd'.mark rfl rfl ▸
          hbest.not_above hd' (hdd'.identity.symm.trans hsame)
      have hnotc : c.cmp d ≠ .gt :=
        Candidate.cmp_congr hcc'.version hcc'.mark rfl rfl ▸
          hbest'.not_above hc' (hcc'.identity.symm.trans hsame.symm)
      have heq : c.cmp d = .eq := by
        cases ho : c.cmp d with
        | eq => rfl
        | lt => exact absurd (OrientedCmp.gt_of_lt ho) hnotd
        | gt => exact absurd ho hnotc
      obtain ⟨hv, hw⟩ := Candidate.eq_of_cmp_eq heq
      rw [Option.map_some, Option.map_some, hv, hw]

end KeepsBest

/-- What an index holds after offers that started from nothing. -/
theorem keepsBest_offerAll (host : HostRuntime) (offers : List Candidate) :
    KeepsBest (offers.filter fun c => host.family.accepts c.runtime)
      ((empty host).offerAll offers) :=
  (KeepsBest.empty host).offerAll offers

/-- **An index holds the best copies, whatever is offered.**  After any sequence of
offers to a new index the modules stand in the order of their first usable offers,
each once; of each the index holds the earliest of its highest usable copies; what
the host cannot use is refused and changes nothing; and the versions and marks that
are held do not depend on the order of the offers. -/
theorem offerAll_holds_best {family : RuntimeFamily} {fresh : CandidateIndex}
    (hnew : forFamily family = .ok fresh) (offers : List Candidate) :
    let usable := offers.filter fun c => family.accepts c.runtime
    let index := fresh.offerAll offers
    index.candidates.map (·.identity) = (usable.map (·.identity)).eraseDups ∧
    (index.candidates.map (·.identity)).Nodup ∧
    (∀ name, index.copy? name
      = usable.find? fun c => c.identity == name && c.isBestOf usable) ∧
    (∀ c, family.accepts c.runtime = false → ∃ target, c.runtime = some target ∧
      index.offer c = (if c.fromWildcard then .ok (.rejected target, index)
        else .error (.incompatibleRuntime c.path target index.host)) ∧
      index.offered c = index) ∧
    ∀ offers', offers.Perm offers' → ∀ name,
      (fresh.offerAll offers').standing name = index.standing name := by
  obtain ⟨host, hhost, rfl⟩ : ∃ host : HostRuntime, family = host.family ∧ fresh = empty host := by
    unfold forFamily at hnew
    cases hf : HostRuntime.ofFamily? family with
    | none => rw [hf] at hnew; cases hnew
    | some host =>
      rw [hf] at hnew
      exact ⟨host, HostRuntime.ofFamily?_eq_some_iff.mp hf, (Except.ok.inj hnew).symm⟩
  subst hhost
  intro usable index
  have hbest : KeepsBest usable index := keepsBest_offerAll host offers
  refine ⟨hbest.names, hbest.names ▸ Lists.nodup_eraseDups _, hbest.copy?_eq, ?_, ?_⟩
  · intro c hc
    have hindex : index.host.family.accepts c.runtime = false := by
      rw [show index.host = host from host_offerAll]; exact hc
    obtain ⟨target, htarget, hr⟩ := refused?_eq_some hindex
    refine ⟨target, htarget, ?_, offered_of_not_accepts hindex⟩
    rw [offer, hr]
  · intro offers' hperm name
    have hbest' := keepsBest_offerAll host offers'
    have hmem : ∀ {c}, c ∈ offers.filter (fun c => host.family.accepts c.runtime) ↔
        c ∈ offers'.filter fun c => host.family.accepts c.runtime :=
      fun {c} => (hperm.filter _).mem_iff
    exact hbest'.standing_eq hbest (fun c hc => ⟨c, hmem.mpr hc, .refl c⟩)
      (fun c hc => ⟨c, hmem.mp hc, .refl c⟩) name

/-- Of four copies the first explicit one is held: the wildcard copy before it and
the equal copy behind it give way, and the higher version is for another host. -/
theorem offerAll_holds_best_of_four :
    let offers : List Candidate :=
      [("a", "1.0", true, none), ("b", "1.0", false, none), ("c", "1.0.0", false, none),
        ("d", "2.0", true, some RuntimeFamily.desktop)].filterMap
        fun (path, version, wild, family) =>
          (Candidate.of ⟨path⟩ { name := "tools", version, runtime := family.map (⟨·, none⟩) }
            wild).toOption
    forFamily .core = .ok (empty .core) ∧
      (((empty .core).offerAll offers).copy? "tools").map (·.path) = some ⟨"b"⟩ ∧
      ((empty .core).offerAll offers.reverse).standing "tools"
        = some (.release 1 0 0, false) := by
  intro offers
  have hnew : forFamily .core = .ok (empty .core) := rfl
  obtain ⟨-, -, hcopy, -, hperm⟩ := offerAll_holds_best hnew offers
  have hheld := hcopy "tools"
  refine ⟨hnew, ?_, ?_⟩
  · rw [hheld]
    decide +kernel
  · rw [hperm offers.reverse (List.reverse_perm offers).symm "tools", standing, hheld]
    decide +kernel

end CandidateIndex
end PluginHost
