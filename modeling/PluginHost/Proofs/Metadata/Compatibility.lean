import PluginHost.MetadataSource
import PluginHost.Proofs.Json.Lenient

/-! # Descriptions of later modules

Each type of a description has its `Shape`, and its reader tolerates all changes of texts of that
shape, by its parts.  So a host reads a description in whatever order its members stand, with
members it does not know, and with absent parts spelled out as `null`, at any depth and with any
white space (`Metadata.reading_forward_compatible`).

The lists of a description are no options: `null` does not stand for an empty list. -/
namespace PluginHost
open JsonTree RecordField

/-! ## The parts of a description -/

theorem TypeName.tolerates : Tolerates .leaf TypeName.read := tolerates_text.map TypeName.mk

theorem RuntimeFamily.tolerates : Tolerates .leaf RuntimeFamily.read := tolerates_variant _

theorem tolerates_optionalText : Tolerates (.option .leaf) (readOption readText) :=
  tolerates_text.option

/-- A runtime: a family, and a version that may be absent. -/
def RuntimeDescriptor.shape : Shape := .record [("family", .leaf), ("version", .option .leaf)]

theorem RuntimeDescriptor.tolerates :
    Tolerates RuntimeDescriptor.shape RuntimeDescriptor.format.read := by
  refine RecordFormat.Lenient.tolerates ⟨?_, by decide, ?_⟩
  · exact .cons (.of_tolerates RuntimeFamily.tolerates nofun)
      (.cons (.of_tolerates tolerates_optionalText fun _ _ => rfl) .nil)
  · exact List.pairwise_pair.mpr (commutes_of_put fun _ _ _ => rfl)

/-- A property, of which nothing may be absent. -/
def Property.shape : Shape := .record [("name", .leaf), ("value", .leaf)]

theorem Property.tolerates : Tolerates Property.shape Property.format.read := by
  refine RecordFormat.Lenient.tolerates ⟨?_, by decide, ?_⟩
  · exact .cons (.of_tolerates tolerates_text nofun)
      (.cons (.of_tolerates tolerates_text nofun) .nil)
  · exact List.pairwise_pair.mpr (commutes_of_put fun _ _ _ => rfl)

/-- The mark of an extension, of which all but the properties may be spelled out as absent. -/
def ExtensionMark.shape : Shape :=
  .record [("path", .option .leaf), ("description", .option .leaf), ("enabled", .option .leaf),
    ("engine_version", .option .leaf), ("properties", .list Property.shape)]

theorem ExtensionMark.tolerates : Tolerates ExtensionMark.shape ExtensionMark.format.read := by
  refine RecordFormat.Lenient.tolerates ⟨?_, by decide, ?_⟩
  · exact .cons (.of_tolerates tolerates_optionalText fun _ _ => rfl)
      (.cons (.of_tolerates tolerates_optionalText fun _ _ => rfl)
        (.cons (.of_tolerates tolerates_flag.option fun _ _ => rfl)
          (.cons (.of_tolerates tolerates_optionalText fun _ _ => rfl)
            (.cons (.of_tolerates Property.tolerates.list nofun) .nil))))
  · simp only [ExtensionMark.format, List.pairwise_cons, List.forall_mem_cons, List.not_mem_nil,
      false_imp_iff, implies_true, List.Pairwise.nil, and_true]
    and_intros <;> exact commutes_of_put fun _ _ _ => rfl

/-- The mark of a point, which need not say anything. -/
def PointMark.shape : Shape := .record [("path", .option .leaf), ("description", .option .leaf)]

theorem PointMark.tolerates : Tolerates PointMark.shape PointMark.format.read := by
  refine RecordFormat.Lenient.tolerates ⟨?_, by decide, ?_⟩
  · exact .cons (.of_tolerates tolerates_optionalText fun _ _ => rfl)
      (.cons (.of_tolerates tolerates_optionalText fun _ _ => rfl) .nil)
  · exact List.pairwise_pair.mpr (commutes_of_put fun _ _ _ => rfl)

/-- A type, with what it is derived from and both marks as options. -/
def TypeDeclaration.shape : Shape :=
  .record [("name", .leaf), ("implements", .list .leaf), ("extends", .option .leaf),
    ("extension_point", .option PointMark.shape), ("extension", .option ExtensionMark.shape)]

theorem TypeDeclaration.tolerates :
    Tolerates TypeDeclaration.shape TypeDeclaration.format.read := by
  refine RecordFormat.Lenient.tolerates ⟨?_, by decide, ?_⟩
  · exact .cons (.of_tolerates TypeName.tolerates nofun)
      (.cons (.of_tolerates TypeName.tolerates.list nofun)
        (.cons (.of_tolerates TypeName.tolerates.option fun _ _ => rfl)
          (.cons (.of_tolerates PointMark.tolerates.option fun _ _ => rfl)
            (.cons (.of_tolerates ExtensionMark.tolerates.option fun _ _ => rfl) .nil))))
  · simp only [TypeDeclaration.format, List.pairwise_cons, List.forall_mem_cons, List.not_mem_nil,
      false_imp_iff, implies_true, List.Pairwise.nil, and_true]
    and_intros <;> exact commutes_of_put fun _ _ _ => rfl

/-- A point that a module declares by itself, whose path may not be absent. -/
def PointDeclaration.shape : Shape :=
  .record [("path", .leaf), ("capability", .leaf), ("description", .option .leaf)]

theorem PointDeclaration.tolerates :
    Tolerates PointDeclaration.shape PointDeclaration.format.read := by
  refine RecordFormat.Lenient.tolerates ⟨?_, by decide, ?_⟩
  · exact .cons (.of_tolerates tolerates_text nofun)
      (.cons (.of_tolerates TypeName.tolerates nofun)
        (.cons (.of_tolerates tolerates_optionalText fun _ _ => rfl) .nil))
  · simp only [PointDeclaration.format, List.pairwise_cons, List.forall_mem_cons, List.not_mem_nil,
      false_imp_iff, implies_true, List.Pairwise.nil, and_true]
    and_intros <;> exact commutes_of_put fun _ _ _ => rfl

/-! ## Descriptions -/

namespace Metadata

/-- A description: the runtime may be absent, and the two lists are no options. -/
def shape : Shape :=
  .record [("name", .leaf), ("version", .leaf),
    ("target_runtime", .option RuntimeDescriptor.shape),
    ("extension_points", .list PointDeclaration.shape), ("types", .list TypeDeclaration.shape)]

/-- **The reader of descriptions tolerates changes.** -/
theorem tolerates : Tolerates shape format.read := by
  refine RecordFormat.Lenient.tolerates ⟨?_, by decide, ?_⟩
  · exact .cons (.of_tolerates tolerates_text nofun)
      (.cons (.of_tolerates tolerates_text nofun)
        (.cons (.of_tolerates RuntimeDescriptor.tolerates.option fun _ _ => rfl)
          (.cons (.of_tolerates PointDeclaration.tolerates.list nofun)
            (.cons (.of_tolerates TypeDeclaration.tolerates.list nofun) .nil))))
  · simp only [format, List.pairwise_cons, List.forall_mem_cons, List.not_mem_nil, false_imp_iff,
      implies_true, List.Pairwise.nil, and_true]
    and_intros <;> exact commutes_of_put fun _ _ _ => rfl

theorem ofPayloadAt_eq_ok_iff {path : Path} {payload : List UInt8} {m : Metadata} :
    ofPayloadAt path payload = .ok m ↔ format.readPayload payload = .ok m := by
  unfold ofPayloadAt ofPayload
  split <;> rename_i hread <;> rw [hread]
  · simp only [Except.ok.injEq]
  · exact ⟨nofun, nofun⟩

/-- **Descriptions are read forward compatibly.**  A payload that is read is a text of some tree,
and every text of every tree that changes lead to is read as the same description. -/
theorem reading_forward_compatible {path : Path} {payload : List UInt8} {m : Metadata}
    (h : ofPayloadAt path payload = .ok m) :
    (∃ t : JsonTree, t.Spells payload) ∧ ∀ (t t' : JsonTree) (payload' : List UInt8),
      t.Spells payload → Relation.ReflTransGen (Change shape) t t' → t'.Spells payload' →
      ofPayloadAt path payload' = .ok m := by
  have hread := ofPayloadAt_eq_ok_iff.mp h
  constructor
  · obtain ⟨t, hspells, -⟩ := (RecordFormat.readPayload_eq_ok_iff tolerates).mp hread
    exact ⟨t, hspells⟩
  · intro t t' payload' hspells hchanges hspells'
    exact ofPayloadAt_eq_ok_iff.mpr
      (RecordFormat.readPayload_kept tolerates hread hspells hchanges hspells')

/-! ### A description that a later module spells -/

/-- The tree of a text. -/
def textTree (s : String) : JsonTree := .scalar (.string (some s))

/-- The members of a description of one type. -/
def plainMembers (type : JsonTree) : List (JsonToken × JsonTree) :=
  [(Json.textToken "name", textTree "acme"), (Json.textToken "version", textTree "1.0"),
    (Json.textToken "types", .array [type] true)]

/-- The members of a type that is an extension. -/
def plainType (mark : JsonTree) : List (JsonToken × JsonTree) :=
  [(Json.textToken "name", textTree "Xml"), (Json.textToken "extension", mark)]

/-- The tree of a description with one type, whose mark says nothing. -/
def plain : JsonTree := .object (plainMembers (.object (plainType (.object [] true)) true)) true

/-- The description as a payload without white space. -/
def plainPayload : List UInt8 := Utf8.encode
  ("\x7b\"name\":\"acme\",\"version\":\"1.0\"," ++
    "\"types\":[\x7b\"name\":\"Xml\",\"extension\":\x7b\x7d\x7d]\x7d")

/-- The mark with its absent path spelled out. -/
def spelledMark : JsonTree := .object [(Json.textToken "path", .scalar .null)] true

/-- A member that no host knows. -/
def unknownMember : JsonToken × JsonTree :=
  (Json.textToken "schema",
    .array [.object [(Json.textToken "name", .scalar .null)] true, .array [] true] true)

/-- The description with all members in reverse, one more member, and the absent path. -/
def extended : JsonTree :=
  .object (unknownMember ::
    (plainMembers (.object (plainType spelledMark).reverse true)).reverse) true

/-- The longer description as a payload with white space, and with a character
that is written as an escape. -/
def extendedPayload : List UInt8 := Utf8.encode
  ("\x7b \"schema\": [\x7b\"name\": null\x7d, []],\n" ++
    "  \"types\": [\x7b \"extension\": \x7b\"path\": null\x7d, \"name\": \"\\u0058ml\" \x7d],\n" ++
    "  \"version\": \"1.0\", \"name\": \"acme\" \x7d\n")

theorem change_in_type {type type' : JsonTree} (h : Change TypeDeclaration.shape type type') :
    Change shape (.object (plainMembers type) true) (.object (plainMembers type') true) :=
  @Change.field _ "types" _ _ _ [_, _] [] true (by simp) (@Change.item _ _ _ [] [] true h)

theorem changes_plain : Relation.ReflTransGen (Change shape) plain extended := by
  have hpath : Change ExtensionMark.shape (.object [] true) spelledMark :=
    .absent List.mem_cons_self fun _ hmember => absurd hmember List.not_mem_nil
  have hmark : Change TypeDeclaration.shape (.object (plainType (.object [] true)) true)
      (.object (plainType spelledMark) true) :=
    @Change.field _ "extension" _ _ _ [_] [] true (by simp) (.present hpath)
  have htype : Change TypeDeclaration.shape (.object (plainType spelledMark) true)
      (.object (plainType spelledMark).reverse true) :=
    .permute (List.reverse_perm _).symm
  have hinside : Relation.ReflTransGen (Change shape) plain
      (.object (plainMembers (.object (plainType spelledMark).reverse true)) true) :=
    (Relation.ReflTransGen.single (change_in_type hmark)).tail (change_in_type htype)
  exact (hinside.tail (.permute (List.reverse_perm _).symm)).tail (.add (by decide) rfl)

/-- What both payloads are read as. -/
def described : Metadata where
  name := "acme"
  version := "1.0"
  types := [{ name := ⟨"Xml"⟩, extension := some {} }]

/-- Four changes at three depths lead from the one description to the other, and the host reads
both alike. -/
theorem reading_forward_compatible_of_plain :
    ofPayloadAt ⟨"acme.wasm"⟩ plainPayload = .ok described ∧ plain.Spells plainPayload ∧
    Relation.ReflTransGen (Change shape) plain extended ∧ extended.Spells extendedPayload ∧
    ofPayloadAt ⟨"acme.wasm"⟩ extendedPayload = .ok described := by
  have hread : ofPayloadAt ⟨"acme.wasm"⟩ plainPayload = .ok described :=
    eq_ok_of_toOption (by decide +kernel)
  have hplain : plain.Spells plainPayload := spells_of_tokens rfl (by decide +kernel)
  have hextended : extended.Spells extendedPayload := spells_of_tokens rfl (by decide +kernel)
  exact ⟨hread, hplain, changes_plain, hextended,
    (reading_forward_compatible hread).2 _ _ _ hplain changes_plain hextended⟩

end Metadata
end PluginHost
