import PluginHost.Proofs.Install.Success
import PluginHost.Proofs.Version.Order

/-! # Installing for hosts of two versions

An extension may ask for a least version of the host.  So one type brings into a newer
host what it brings into an older one, or an extension that the older one does without
(`Candidate.extension?_of_isLE`); whether its request is a version at all is no matter of
the host.  From a type this goes up to a module (`Candidate.scan_of_isLE`) and to the
modules of an installation (`Install.candidates_of_isLE`): an installation that succeeds
for the newer host succeeds for the older one, and the older host lists some of the
extensions that the newer one lists, in the same order and at the same points. -/
namespace PluginHost

open Std

variable {older newer : Version}

/-! ## One type -/

/-- A host is new enough as soon as an older one is, and what is no version is none for both. -/
theorem isNewEnough_of_isLE (hle : (older.cmp newer).isLE = true) (required : Option String) :
    isNewEnough older required = isNewEnough newer required ∨
      (isNewEnough older required = .ok false ∧ isNewEnough newer required = .ok true) := by
  cases required with
  | none => exact .inl rfl
  | some text =>
    cases hversion : Version.ofText? text with
    | none => exact .inl (by simp only [isNewEnough, hversion])
    | some version =>
      rw [Candidate.isNewEnough_of_version hversion, Candidate.isNewEnough_of_version hversion]
      cases hold : (version.cmp older).isLE with
      | true => exact .inl (by rw [TransCmp.isLE_trans hold hle])
      | false =>
        cases (version.cmp newer).isLE with
        | true => exact .inr ⟨rfl, rfl⟩
        | false => exact .inl rfl

namespace Candidate

/-- A type brings into a newer host what it brings into an older one, or one extension more. -/
theorem extension?_of_isLE (hle : (older.cmp newer).isLE = true) (c : Candidate)
    (t : TypeDeclaration) :
    c.extension? older t = c.extension? newer t ∨
      (c.extension? older t = .ok none ∧
        ∃ node, c.extension? newer t = .ok (some node)) := by
  unfold extension?
  cases t.extension with
  | none => exact .inl rfl
  | some mark =>
    dsimp only
    obtain hsame | ⟨hold, hnew⟩ := isNewEnough_of_isLE hle mark.engineVersion
    · exact .inl (by rw [hsame])
    · exact .inr (by simp [hold, hnew])

/-! ## One module -/

/-- Types have the same fault for both hosts, and no fewer extensions for the newer one. -/
theorem extensionsOf_of_isLE (hle : (older.cmp newer).isLE = true) (c : Candidate)
    (types : List TypeDeclaration) :
    (c.extensionsOf older types).2 = (c.extensionsOf newer types).2 ∧
      (c.extensionsOf older types).1.Sublist (c.extensionsOf newer types).1 := by
  induction types with
  | nil => exact ⟨rfl, .slnil⟩
  | cons t types ih =>
    obtain ⟨hfault, hnodes⟩ := ih
    rw [extensionsOf, extensionsOf]
    obtain hsame | ⟨hold, node, hnew⟩ := extension?_of_isLE hle c t
    · rw [hsame]
      rcases c.extension? newer t with e | _ | node
      · exact ⟨rfl, .slnil⟩
      · exact ⟨hfault, hnodes⟩
      · exact ⟨hfault, hnodes.cons_cons node⟩
    · rw [hold, hnew]
      exact ⟨hfault, hnodes.cons node⟩

end Candidate

/-- The same points as another contribution, and extensions of its extensions. -/
structure Contribution.Within (brought more : Contribution) : Prop where
  points_eq : brought.points = more.points
  sublist : brought.nodes.Sublist more.nodes

namespace Candidate

/-- Whether a module can be scanned is no matter of the host's version, and a module brings
into a newer host at least what it brings into an older one. -/
theorem scan_of_isLE (hle : (older.cmp newer).isLE = true) (c : Candidate) :
    (∃ e, c.scan older = .error e ∧ c.scan newer = .error e) ∨
      ∃ brought more, c.scan older = .ok brought ∧ c.scan newer = .ok more ∧
        brought.Within more := by
  obtain ⟨hfault, hnodes⟩ := extensionsOf_of_isLE hle c c.metadata.types
  unfold scan
  rcases hold : c.extensionsOf older c.metadata.types with ⟨nodes, fault⟩
  rcases hnew : c.extensionsOf newer c.metadata.types with ⟨nodes', fault'⟩
  rw [hold, hnew] at hfault hnodes
  obtain rfl : fault = fault' := hfault
  cases fault with
  | some e => exact .inl ⟨e, rfl, rfl⟩
  | none => exact .inr ⟨_, _, rfl, rfl, rfl, hnodes⟩

theorem scan_eq_error_iff_of_isLE (hle : (older.cmp newer).isLE = true) (c : Candidate)
    (e : HostError) : c.scan older = .error e ↔ c.scan newer = .error e := by
  obtain ⟨e', hold, hnew⟩ | ⟨_, _, hold, hnew, -⟩ := c.scan_of_isLE hle <;> rw [hold, hnew]
  simp

theorem scan_isOk_iff_of_isLE (hle : (older.cmp newer).isLE = true) (c : Candidate) :
    (∃ brought, c.scan older = .ok brought) ↔ ∃ brought, c.scan newer = .ok brought := by
  obtain ⟨_, hold, hnew⟩ | ⟨_, _, hold, hnew, -⟩ := c.scan_of_isLE hle <;> simp [hold, hnew]

end Candidate

/-! ## All modules -/

namespace Install

variable {found : List Candidate} {r s : Registry}

/-- The same modules with the same points, and extensions of their extensions. -/
structure Within (modules more : List (Candidate × Contribution)) : Prop where
  modules_eq : modules.map (·.1) = more.map (·.1)
  points_eq : modules.flatMap (·.2.points) = more.flatMap (·.2.points)
  sublist : (modules.flatMap (·.2.nodes)).Sublist (more.flatMap (·.2.nodes))

/-- The same modules are scanned for both hosts, and the newer one gets no fewer extensions. -/
theorem scanned_of_isLE (hle : (older.cmp newer).isLE = true) (found : List Candidate) :
    Within (scanned older found) (scanned newer found) := by
  induction found with
  | nil => exact ⟨rfl, rfl, .slnil⟩
  | cons c found ih =>
    rw [scanned, scanned, List.filterMap_cons, List.filterMap_cons]
    obtain ⟨_, hold, hnew⟩ | ⟨brought, more, hold, hnew, hwithin⟩ := c.scan_of_isLE hle
    · rw [hold, hnew]
      exact ih
    · rw [hold, hnew]
      exact ⟨congrArg (c :: ·) ih.modules_eq, congrArg₂ (· ++ ·) hwithin.points_eq ih.points_eq,
        hwithin.sublist.append ih.sublist⟩

theorem declareAll_eq_of_modules_eq {modules more : List (Candidate × Contribution)}
    (h : modules.map (·.1) = more.map (·.1)) (r : Registry) :
    declareAll modules r = declareAll more r := by
  have hfold (ms : List (Candidate × Contribution)) (g : TypeGraph) :
      ms.foldl (fun g m => g.merge m.1.metadata) g =
        (ms.map (·.1)).foldl (fun g c => g.merge c.metadata) g := by rw [List.foldl_map]
  simp only [declareAll, hfold, h]

theorem Within.furnish_eq {modules more : List (Candidate × Contribution)}
    (h : Within modules more) (r : Registry) : furnish modules r = furnish more r := by
  rw [furnish, furnish, declareAll_eq_of_modules_eq h.modules_eq, h.points_eq]

/-- **An installation that succeeds for a host succeeds for each older one.** -/
theorem candidates_of_isLE (hle : (older.cmp newer).isLE = true) (h : r.Consistent)
    (hs : (candidates newer found r).2 = .ok s) : ∃ s', (candidates older found r).2 = .ok s' := by
  obtain ⟨hscan, t, hfurnish, hadmits⟩ := (candidates_isOk_iff h).mp ⟨s, hs⟩
  have hwithin := scanned_of_isLE hle found
  refine (candidates_isOk_iff h).mpr ⟨fun c hc hw => ?_, t, ?_, fun node hnode => ?_⟩
  · exact (c.scan_isOk_iff_of_isLE hle).mpr (hscan c hc hw)
  · rw [hwithin.furnish_eq, hfurnish]
  · exact hadmits node (hwithin.sublist.subset hnode)

/-- What the older host gets is part of what the newer one gets. -/
theorem Brings.of_within {modules more : List (Candidate × Contribution)} {s s' : Registry}
    (hless : Brings r modules s') (h : Within modules more) (hmore : Brings r more s) :
    s'.layout = s.layout ∧ s'.types = s.types ∧ s'.extensions.Sublist s.extensions := by
  have hlayout : s'.layout = s.layout := by rw [hless.layout_eq, hmore.layout_eq, h.points_eq]
  have htypes : s'.types = s.types := by
    rw [hless.types_eq, hmore.types_eq, declareAll_eq_of_modules_eq h.modules_eq]
  refine ⟨hlayout, htypes, ?_⟩
  rw [hless.extensions_eq, hmore.extensions_eq, Registry.settled?_congr hlayout htypes]
  exact h.sublist.filterMap _

end Install
end PluginHost
