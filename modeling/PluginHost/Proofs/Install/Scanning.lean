import Mathlib.Data.List.Forall2
import PluginHost.Proofs.Install.Content
import PluginHost.Proofs.Registry.Properties
import PluginHost.Proofs.Text.Trimming

/-! # What a scan extracts

What a module brings is told by its declarations, each for itself: `IsPointOf` says what a type
that is marked as a point brings, and `IsExtensionOf` what a type that is marked as an extension
brings.  A type may be both or be listed twice; it is counted for each of its marks and as often
as it is listed, but an extension is left out for a host that is too old
(`TypeDeclaration.isInstallable`).  So the points and the extensions of a scan stand side by side
with the declarations that they come from, and the order of the declarations is theirs.

The scan stops at the first type that asks for a host version that is none.  Types that are left
out do not hide it, since whether a request is a version is found out before the host is looked
at (`Candidate.extension?_cases`).  The main statement is `Candidate.extracts_each_declaration`. -/
namespace PluginHost

/-! ## Declarations -/

/-- The path that is given by what was written: trimmed, and none if that is blank. -/
inductive GivesPath : (written given : Option String) → Prop
  | absent : GivesPath none none
  | blank {text : String} (blank : Text.Blank text) : GivesPath (some text) none
  | text {text : String} (notBlank : ¬Text.Blank text) :
      GivesPath (some text) (some (Text.trimmed text))

/-- The point that a type is for itself. -/
def IsPointOf (t : TypeDeclaration) (point : ExtensionPoint) : Prop :=
  ∃ mark given, t.point = some mark ∧ GivesPath mark.path given ∧
    point = { path := given.getD t.name.defaultPoint, capability := t.name,
              description := mark.description }

/-- The extension of a type of a module. -/
structure IsExtensionOf (c : Candidate) (t : TypeDeclaration) (node : Extension) : Prop
    extends Install.ComesFrom c node where
  capability : node.capability = t.name
  /-- It stands in no point yet. -/
  path_eq_none : node.path = none
  marked : ∃ mark, t.extension = some mark ∧ GivesPath mark.path node.declaredPath ∧
    node.description = mark.description ∧ node.enabled = mark.enabled.getD true ∧
    ∀ name, node.properties.values name =
      (mark.properties.filter (·.name == name)).map (·.value)

/-- Whether a type has an extension that a host of version `host` is new enough for. -/
def TypeDeclaration.isInstallable (host : Version) (t : TypeDeclaration) : Bool :=
  t.extension.any fun mark => mark.engineVersion.all fun text =>
    (Version.ofText? text).any fun version => (version.cmp host).isLE

/-! ## Marks -/

theorem givesPath_givenPath (path : Option String) : GivesPath path (givenPath path) := by
  cases path with
  | none => exact .absent
  | some text =>
    by_cases h : Text.trimmed text = ""
    · have hnone : givenPath (some text) = none := by simp [givenPath, h]
      rw [hnone]
      exact .blank (Text.trimmed_eq_empty_iff.mp h)
    · have hsome : givenPath (some text) = some (Text.trimmed text) := by simp [givenPath, h]
      rw [hsome]
      exact .text fun hblank => h (Text.trimmed_eq_empty_iff.mpr hblank)

/-- The points of types stand in the order of the types. -/
theorem forall₂_filterMap_point? (types : List TypeDeclaration) :
    List.Forall₂ IsPointOf (types.filter (·.point.isSome)) (types.filterMap (·.point?)) := by
  induction types with
  | nil => exact .nil
  | cons t types ih =>
    cases hmark : t.point with
    | none =>
      have hnone : t.point? = none := by simp [TypeDeclaration.point?, hmark]
      rw [List.filter_cons_of_neg (by simp [hmark]), List.filterMap_cons_none hnone]
      exact ih
    | some mark =>
      have hsome : t.point? = some
          { path := (givenPath mark.path).getD t.name.defaultPoint, capability := t.name,
            description := mark.description } := by
        rw [TypeDeclaration.point?, hmark]
        rfl
      rw [List.filter_cons_of_pos (by simp [hmark]), List.filterMap_cons_some hsome]
      exact .cons ⟨mark, _, hmark, givesPath_givenPath mark.path, rfl⟩ ih

namespace Candidate

variable {host : Version} {c : Candidate}

theorem isExtensionOf_extensionOf {t : TypeDeclaration} {mark : ExtensionMark}
    (hmark : t.extension = some mark) : IsExtensionOf c t (c.extensionOf t.name mark) where
  path := rfl
  version := rfl
  runtime := rfl
  fromWildcard := rfl
  capability := rfl
  path_eq_none := rfl
  marked := ⟨mark, hmark, givesPath_givenPath mark.path, rfl, rfl,
    ExtensionMark.values_propertyMap mark⟩

/-! ## Types -/

/-- A type fails if it asks for what is no version.  Otherwise it brings its extension, or nothing
when it has none that the host is new enough for. -/
theorem extension?_cases (host : Version) (c : Candidate) (t : TypeDeclaration) :
    (∃ text, AsksForNoVersion t text ∧
      c.extension? host t = .error (.moduleRead c.path (.engineVersion t.name text))) ∨
    ((∀ text, ¬AsksForNoVersion t text) ∧ t.isInstallable host = false ∧
      c.extension? host t = .ok none) ∨
    ((∀ text, ¬AsksForNoVersion t text) ∧ t.isInstallable host = true ∧
      ∃ node, IsExtensionOf c t node ∧ c.extension? host t = .ok (some node)) := by
  cases hmark : t.extension with
  | none =>
    refine .inr (.inl ⟨?_, by simp [TypeDeclaration.isInstallable, hmark],
      by simp [extension?, hmark]⟩)
    rintro text ⟨⟨mark, hsome, -⟩, -⟩
    rw [hmark] at hsome
    cases hsome
  | some mark =>
    have hnode := isExtensionOf_extensionOf (c := c) hmark
    have hasks {text : String} (h : AsksForNoVersion t text) :
        mark.engineVersion = some text ∧ Version.ofText? text = none := by
      obtain ⟨⟨other, hother, htext⟩, hversion⟩ := h
      obtain rfl := Option.some.inj (hmark.symm.trans hother)
      exact ⟨htext, hversion⟩
    cases hrequired : mark.engineVersion with
    | none =>
      refine .inr (.inr ⟨fun text h => ?_,
        by simp [TypeDeclaration.isInstallable, hmark, hrequired],
        _, hnode, by simp [extension?, hmark, hrequired, isNewEnough]⟩)
      rw [hrequired] at hasks
      cases (hasks h).1
    | some required =>
      cases hversion : Version.ofText? required with
      | none =>
        exact .inl ⟨required, ⟨⟨mark, hmark, hrequired⟩, hversion⟩,
          by simp [extension?, hmark, hrequired, isNewEnough, hversion]⟩
      | some version =>
        have hplain : ∀ text, ¬AsksForNoVersion t text := by
          intro text h
          obtain ⟨htext, hnone⟩ := hasks h
          obtain rfl := Option.some.inj (hrequired.symm.trans htext)
          rw [hversion] at hnone
          cases hnone
        have hnew : isNewEnough host (some required) = .ok (version.cmp host).isLE :=
          isNewEnough_of_version hversion
        have htake : t.isInstallable host = (version.cmp host).isLE := by
          simp [TypeDeclaration.isInstallable, hmark, hrequired, hversion]
        cases hle : (version.cmp host).isLE with
        | false =>
          rw [hle] at hnew htake
          exact .inr (.inl ⟨hplain, htake, by simp [extension?, hmark, hrequired, hnew]⟩)
        | true =>
          rw [hle] at hnew htake
          exact .inr (.inr ⟨hplain, htake, _, hnode, by simp [extension?, hmark, hrequired, hnew]⟩)

/-- The first type that asks for what is no version. -/
def IsFirstFault (types : List TypeDeclaration) (t : TypeDeclaration) (text : String) : Prop :=
  AsksForNoVersion t text ∧ ∃ front back, types = front ++ t :: back ∧
    ∀ u ∈ front, ∀ other, ¬AsksForNoVersion u other

/-- **Types are scanned up to the first fault**, and without one each brings its extension. -/
theorem extensionsOf_cases (host : Version) (c : Candidate) (types : List TypeDeclaration) :
    (∃ t text, IsFirstFault types t text ∧
      (c.extensionsOf host types).2 =
        some (.moduleRead c.path (.engineVersion t.name text))) ∨
    ((∀ t ∈ types, ∀ text, ¬AsksForNoVersion t text) ∧
      ∃ nodes, c.extensionsOf host types = (nodes, none) ∧
        List.Forall₂ (IsExtensionOf c) (types.filter (·.isInstallable host)) nodes) := by
  induction types with
  | nil => exact .inr ⟨fun _ h => absurd h List.not_mem_nil, [], rfl, .nil⟩
  | cons t types ih =>
    rw [extensionsOf]
    rcases extension?_cases host c t with
      ⟨text, hasks, ht⟩ | ⟨hplain, hskip, ht⟩ | ⟨hplain, htake, node, hnode, ht⟩
    · refine .inl ⟨t, text, ⟨hasks, [], types, rfl, fun _ h => absurd h List.not_mem_nil⟩, ?_⟩
      rw [ht]
    all_goals
      have hfirst {u : TypeDeclaration} {text : String} (h : IsFirstFault types u text) :
          IsFirstFault (t :: types) u text := by
        obtain ⟨hasks, front, back, rfl, hfront⟩ := h
        exact ⟨hasks, t :: front, back, rfl, List.forall_mem_cons.mpr ⟨hplain, hfront⟩⟩
      rcases ih with ⟨u, text, hfault, heq⟩ | ⟨hall, nodes, heq, hnodes⟩
    · exact .inl ⟨u, text, hfirst hfault, by rw [ht]; exact heq⟩
    · refine .inr ⟨List.forall_mem_cons.mpr ⟨hplain, hall⟩, nodes, by rw [ht]; exact heq, ?_⟩
      rwa [List.filter_cons_of_neg (by simp [hskip])]
    · exact .inl ⟨u, text, hfirst hfault, by rw [ht]; exact heq⟩
    · refine .inr ⟨List.forall_mem_cons.mpr ⟨hplain, hall⟩, node :: nodes, by rw [ht, heq], ?_⟩
      rw [List.filter_cons_of_pos htake]
      exact .cons hnode hnodes

/-! ## Modules -/

/-- **A scan extracts each declaration once, in order.**  The points are those that the module
declares, as they are declared, and then one for each type that is marked as a point.  The
extensions are one for each type with an extension that asks for no newer host.  A scan fails when
some type with an extension asks for a host version that is none, and it tells of the first. -/
theorem extracts_each_declaration (host : Version) (c : Candidate) :
    (∀ brought, c.scan host = .ok brought →
      (∃ typed, brought.points = (c.metadata.points.map fun p =>
          { path := p.path, capability := p.capability, description := p.description }) ++ typed ∧
        List.Forall₂ IsPointOf (c.metadata.types.filter (·.point.isSome)) typed) ∧
      List.Forall₂ (IsExtensionOf c) (c.metadata.types.filter (·.isInstallable host))
        brought.nodes) ∧
    ((∃ e, c.scan host = .error e) ↔ ∃ t ∈ c.metadata.types, ∃ text, AsksForNoVersion t text) ∧
    ∀ e, c.scan host = .error e → ∃ t text, IsFirstFault c.metadata.types t text ∧
      e = .moduleRead c.path (.engineVersion t.name text) := by
  rcases extensionsOf_cases host c c.metadata.types with
    ⟨t, text, hfault, heq⟩ | ⟨hplain, nodes, heq, hnodes⟩
  · have hscan : c.scan host = .error (.moduleRead c.path (.engineVersion t.name text)) := by
      unfold scan
      split
      · rename_i fault hsplit
        rw [hsplit] at heq
        exact congrArg Except.error (Option.some.inj heq)
      · rename_i hsplit
        rw [hsplit] at heq
        cases heq
    have hmem : t ∈ c.metadata.types := by
      obtain ⟨-, front, back, htypes, -⟩ := hfault
      rw [htypes]
      exact List.mem_append_right front List.mem_cons_self
    refine ⟨fun brought h => ?_, ⟨fun _ => ⟨t, hmem, text, hfault.1⟩, fun _ => ⟨_, hscan⟩⟩,
      fun e h => ⟨t, text, hfault, Except.error.inj (h.symm.trans hscan)⟩⟩
    rw [hscan] at h
    cases h
  · have hscan : c.scan host = .ok ⟨c.metadata.extensionPoints, nodes⟩ := by rw [scan, heq]
    refine ⟨fun brought h => ?_, ⟨?_, ?_⟩, fun e h => ?_⟩
    · obtain rfl := Except.ok.inj (hscan.symm.trans h)
      exact ⟨⟨_, rfl, forall₂_filterMap_point? _⟩, hnodes⟩
    · rintro ⟨e, h⟩
      rw [hscan] at h
      cases h
    · rintro ⟨t, ht, text, hasks⟩
      exact absurd hasks (hplain t ht text)
    · rw [hscan] at h
      cases h

/-- A type that is a point under a blank path, and an extension for a newer host. -/
def pointType : TypeDeclaration where
  name := ⟨"a::Sink"⟩
  point := some { path := some " " }
  extension := some { engineVersion := some "9" }

/-- A type whose extension has two values of one name, with one of another between them. -/
def valuedType : TypeDeclaration where
  name := ⟨"Writer"⟩
  extension := some { path := some " /p ", engineVersion := some "1",
                      properties := [⟨"b", "1"⟩, ⟨"a", "2"⟩, ⟨"b", "3"⟩] }

/-- A module that lists one of its types twice. -/
def mixedModule : Candidate where
  path := ⟨"m.wasm"⟩
  metadata := { name := "m", version := "1", points := [⟨" /p", ⟨"P"⟩, none⟩],
                types := [valuedType, pointType, valuedType] }
  version := .release 1 0 0
  fromWildcard := true
  named := by decide +kernel
  version_eq := by decide +kernel

/-- The type that is listed twice brings two extensions, each with all its values, around the one
that is left out, whose point is brought all the same. -/
theorem extracts_each_declaration_of_mixedModule :
    ∃ brought first second point, mixedModule.scan (.release 1 2 0) = .ok brought ∧
      brought.nodes = [first, second] ∧
      brought.points = [⟨" /p", ⟨"P"⟩, none, []⟩, point] ∧ point.capability = ⟨"a::Sink"⟩ ∧
      first.properties.values "b" = ["1", "3"] ∧ second.properties.values "b" = ["1", "3"] := by
  cases hscan : mixedModule.scan (.release 1 2 0) with
  | error e =>
    have hok : (mixedModule.scan (.release 1 2 0)).toOption.isSome = true := by decide +kernel
    rw [hscan] at hok
    cases hok
  | ok brought =>
    obtain ⟨points, nodes⟩ := brought
    obtain ⟨⟨typed, hpoints, htyped⟩, hnodes⟩ :=
      (extracts_each_declaration (.release 1 2 0) mixedModule).1 ⟨points, nodes⟩ hscan
    have hmarked : mixedModule.metadata.types.filter (·.point.isSome) = [pointType] := by
      decide +kernel
    have hinstallable : mixedModule.metadata.types.filter
        (·.isInstallable (.release 1 2 0)) = [valuedType, valuedType] := by
      decide +kernel
    rw [hmarked] at htyped
    rw [hinstallable] at hnodes
    obtain _ | ⟨⟨mark, given, -, -, rfl⟩, _ | _⟩ := htyped
    obtain _ | ⟨hfirst, _ | ⟨hsecond, _ | _⟩⟩ := hnodes
    have hvalues {node : Extension} (h : IsExtensionOf mixedModule valuedType node) :
        node.properties.values "b" = ["1", "3"] := by
      obtain ⟨mark, hmark, -, -, -, hall⟩ := h.marked
      obtain rfl := Option.some.inj hmark
      rw [hall]
      decide +kernel
    exact ⟨_, _, _, _, rfl, rfl, hpoints, rfl, hvalues hfirst, hvalues hsecond⟩

end Candidate
end PluginHost
