import PluginHost.Proofs.Install.Content

/-! # When an installation succeeds

Whether modules can be installed is settled before the first extension is.  The modules
that somebody wrote out have to be scanned without a fault; the paths of all points have
to differ; and each extension has to be admitted (`Registry.Admits`) by the registry that
holds the points and no extension of the modules yet, because an installed extension
changes neither points nor types.  `candidates_isOk_iff` puts the three together.  No
order of modules, points or extensions appears in it. -/
namespace PluginHost

namespace Registry

variable {r s : Registry} {node : Extension}

/-- Whether a registry can do with an extension: there is a point of the path that the
extension names; and when it names none, a point is found for its type, unless a wildcard
found it, since then it may be dropped. -/
structure Admits (r : Registry) (node : Extension) : Prop where
  named : ∀ path, node.declaredPath = some path → path ∈ r.points.map (·.path)
  found : node.declaredPath = none → node.fromWildcard = false →
    (r.deduced? node.capability).isSome = true

theorem SamePlaces.admits_iff (h : r.SamePlaces s) : r.Admits node ↔ s.Admits node := by
  constructor
  · intro hr
    exact ⟨fun path hpath => (h.path_mem_iff path).mp (hr.named path hpath),
      fun hnone hw => h.deduced?_eq ▸ hr.found hnone hw⟩
  · intro hs
    exact ⟨fun path hpath => (h.path_mem_iff path).mpr (hs.named path hpath),
      fun hnone hw => h.deduced?_eq ▸ hs.found hnone hw⟩

/-! ## One change -/

/-- The paths under which a registry has a position are those of its points. -/
theorem Consistent.position?_isSome_iff (h : r.Consistent) {path : String} :
    (∃ index, r.position? path = some index) ↔ path ∈ r.points.map (·.path) := by
  constructor
  · rintro ⟨index, hindex⟩
    obtain ⟨point, hpoint, rfl⟩ := h.position_iff.mp hindex
    exact List.mem_map_of_mem (List.mem_of_getElem? hpoint)
  · intro hpath
    obtain ⟨point, hpoint, rfl⟩ := List.mem_map.mp hpath
    obtain ⟨index, hindex⟩ := List.mem_iff_getElem?.mp hpoint
    exact ⟨index, h.position_iff.mpr ⟨point, hindex, rfl⟩⟩

theorem deduced?_isSome_iff (r : Registry) (capability : TypeName) :
    (r.deduced? capability).isSome = true ↔ ∃ index, r.deduce capability = some index := by
  rw [deduced?_eq]
  constructor
  · intro hsome
    cases hdeduced : r.deduce capability with
    | none => rw [hdeduced] at hsome; cases hsome
    | some index => exact ⟨index, rfl⟩
  · rintro ⟨index, hindex⟩
    obtain ⟨point, hpoint⟩ := points_of_deduce hindex
    rw [hindex, Option.bind_some, hpoint]
    rfl

/-- An extension that is admitted has a target or is dropped, and no other is. -/
theorem Consistent.target_isOk_iff (h : r.Consistent) :
    (∃ target, r.target node = .ok target) ↔ r.Admits node := by
  unfold target
  cases hpath : node.declaredPath with
  | some path =>
    dsimp only
    have hnamed : r.Admits node ↔ path ∈ r.points.map (·.path) := by
      constructor
      · intro hadmits
        exact hadmits.named path hpath
      · intro hmem
        exact ⟨fun other hother => Option.some.inj (hpath.symm.trans hother) ▸ hmem,
          fun hnone => nomatch hpath.symm.trans hnone⟩
    rw [hnamed, ← h.position?_isSome_iff]
    cases r.position? path <;> simp
  | none =>
    dsimp only
    have hfound : r.Admits node ↔
        (node.fromWildcard = false → ∃ index, r.deduce node.capability = some index) := by
      rw [← deduced?_isSome_iff]
      constructor
      · intro hadmits
        exact hadmits.found hpath
      · intro hdeduced
        exact ⟨fun path hsome => (nomatch hpath.symm.trans hsome), fun _ => hdeduced⟩
    rw [hfound]
    cases r.deduce node.capability <;> cases node.fromWildcard <;> simp

theorem changed_install_isOk_iff :
    (∃ t, changed (r.install node) = .ok t) ↔ ∃ target, r.target node = .ok target := by
  obtain ⟨e, htarget, hr⟩ | ⟨hr, htarget | ⟨index, htarget, -⟩⟩ | ⟨index, point, htarget, -, hr⟩ :=
    install_cases node r <;> simp [hr, htarget, changed]

/-! ## Many changes -/

/-- Extensions can be installed when each of them is admitted by the registry as it is
before. -/
theorem installAll_isOk_iff {nodes : List Extension} (h : r.Consistent) :
    (∃ t, Install.installAll nodes r = .ok t) ↔ ∀ node ∈ nodes, r.Admits node := by
  induction nodes generalizing r with
  | nil => exact iff_of_true ⟨r, rfl⟩ fun node hnode => absurd hnode List.not_mem_nil
  | cons node nodes ih =>
    rw [List.forall_mem_cons, ← h.target_isOk_iff, ← changed_install_isOk_iff]
    cases hfirst : changed (r.install node) with
    | error e => simp [Install.installAll, hfirst, bind, Except.bind]
    | ok s =>
      -- The first extension changes no place, so the others are admitted as before.
      have hfilled := (Filled.refl h).install hfirst
      have hsame : s.SamePlaces r := samePlaces_of_layout_eq hfilled.layout_eq hfilled.types_eq
      have hrest := ih hfilled.consistent
      simp only [hsame.admits_iff] at hrest
      simpa [Install.installAll, hfirst, bind, Except.bind] using hrest

/-- Points without extensions can be added when no path is taken. -/
theorem registerAll_isOk_iff {points : List ExtensionPoint} (h : r.Consistent)
    (hvacant : ∀ point ∈ points, point.nodes = []) :
    (∃ t, r.registerAll points = .ok t) ↔ ((r.points ++ points).map (·.path)).Nodup := by
  induction points generalizing r with
  | nil =>
    rw [List.append_nil]
    exact iff_of_true ⟨r, rfl⟩ h.nodup_paths
  | cons point points ih =>
    obtain ⟨hpoint, hpoints⟩ := List.forall_mem_cons.mp hvacant
    obtain ⟨index, htaken, hr⟩ | ⟨hfree, hr⟩ := register_cases point r
    · have hmem := h.position?_isSome_iff.mp ⟨index, htaken⟩
      refine iff_of_false ?_ ?_
      · rintro ⟨t, ht⟩
        simp [registerAll, hr, changed, bind, Except.bind] at ht
      · rw [List.map_append, List.nodup_append]
        intro hnodup
        exact hnodup.2.2 _ hmem _ List.mem_cons_self rfl
    · have hrest := ih (h.withPoint hfree hpoint) hpoints
      rw [withPoint, List.append_assoc] at hrest
      simpa [registerAll, hr, changed, bind, Except.bind, withPoint] using hrest

end Registry

namespace Install

variable {host : Version} {found : List Candidate} {r : Registry}

/-- A scan has no fault when every module that somebody wrote out can be scanned. -/
theorem fault_scanAll_eq_none_iff : (scanAll host found).fault = none ↔
    ∀ c ∈ found, c.fromWildcard = false → ∃ brought, c.scan host = .ok brought := by
  constructor
  · intro h c hc hw
    cases hscan : c.scan host with
    | ok brought => exact ⟨brought, rfl⟩
    | error e =>
      rw [fromWildcard_of_scan_eq_error h hc hscan] at hw
      cases hw
  · intro h
    cases hfault : (scanAll host found).fault with
    | none => rfl
    | some e =>
      obtain ⟨c, hc, hw, hscan⟩ := fault_scanAll hfault
      obtain ⟨brought, hok⟩ := h c hc hw
      rw [hscan] at hok
      cases hok

/-- The points that were scanned are without extensions. -/
theorem vacant_of_mem_scanned :
    ∀ point ∈ (scanned host found).flatMap (·.2.points), point.nodes = [] := by
  intro point hpoint
  obtain ⟨m, hm, hpoint⟩ := List.mem_flatMap.mp hpoint
  exact vacant_of_scan (mem_scanned.mp hm).2 point hpoint

/-- The registry with the points and the types of modules, but not with their extensions,
if no path is taken. -/
def furnish (modules : List (Candidate × Contribution)) (r : Registry) :
    Except HostError Registry :=
  (declareAll modules r).registerAll (modules.flatMap (·.2.points))

theorem extended_of_furnish {t : Registry} (h : r.Consistent)
    (hfurnish : furnish (scanned host found) r = .ok t) :
    Registry.Extended (declareAll (scanned host found) r)
      ((scanned host found).flatMap (·.2.points)) t :=
  .of_registerAll (h.declareTypes _) vacant_of_mem_scanned hfurnish

/-- A registry can be furnished when no path is taken. -/
theorem furnish_isOk_iff (h : r.Consistent) : (∃ t, furnish (scanned host found) r = .ok t) ↔
    ((r.points ++ (scanned host found).flatMap (·.2.points)).map (·.path)).Nodup :=
  Registry.registerAll_isOk_iff (h.declareTypes _) vacant_of_mem_scanned

/-- What modules bring can be put into a registry when that can be furnished and admits the
extensions then. -/
theorem addAll_isOk_iff (h : r.Consistent) :
    (∃ s, addAll (scanned host found) r = .ok s) ↔
      ∃ t, furnish (scanned host found) r = .ok t ∧
        ∀ node ∈ (scanned host found).flatMap (·.2.nodes), t.Admits node := by
  constructor
  · rintro ⟨s, hs⟩
    obtain ⟨t, hfurnish, hinstall⟩ := bind_eq_ok hs
    have hextended := extended_of_furnish h hfurnish
    exact ⟨t, hfurnish, (Registry.installAll_isOk_iff hextended.consistent).mp ⟨s, hinstall⟩⟩
  · rintro ⟨t, hfurnish, hadmits⟩
    have hextended := extended_of_furnish h hfurnish
    obtain ⟨s, hinstall⟩ := (Registry.installAll_isOk_iff hextended.consistent).mpr hadmits
    refine ⟨s, ?_⟩
    rw [addAll, show (declareAll (scanned host found) r).registerAll _ = .ok t from hfurnish]
    exact hinstall

/-- **When an installation succeeds**: every module that was written out can be scanned, the
registry can be furnished, and it admits the extensions then. -/
theorem candidates_isOk_iff (h : r.Consistent) :
    (∃ s, (candidates host found r).2 = .ok s) ↔
      (∀ c ∈ found, c.fromWildcard = false → ∃ brought, c.scan host = .ok brought) ∧
      ∃ t, furnish (scanned host found) r = .ok t ∧
        ∀ node ∈ (scanned host found).flatMap (·.2.nodes), t.Admits node := by
  rw [← fault_scanAll_eq_none_iff, ← addAll_isOk_iff h]
  constructor
  · rintro ⟨s, hs⟩
    obtain ⟨hfault, hadd⟩ := candidates_eq_ok hs
    exact ⟨hfault, s, hadd⟩
  · rintro ⟨hfault, s, hadd⟩
    exact ⟨s, by simp only [candidates, hfault, modules_scanAll hfault, hadd]⟩

end Install
end PluginHost
