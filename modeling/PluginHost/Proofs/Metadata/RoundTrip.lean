import PluginHost.MetadataSource
import PluginHost.Proofs.Json.Records
import PluginHost.Proofs.WasmModule.Framing

/-! # Descriptions that are read back

Each type of a description is read back from its JSON (`Metadata.readsBack` and those before
it), so it is read back from its payload (`Metadata.ofPayload_payload`); and the framing of a
module gives back the payload that was put into it (`WasmModule.findSection_withSection`).
`Metadata.module_round_trip` puts both together: what is drafted is what a host reads. -/
namespace PluginHost
open JsonTree RecordFormat

/-! ## The parts of a description -/

theorem TypeName.readsBack : ReadsBack TypeName.read TypeName.toJson := fun _ => rfl

theorem RuntimeFamily.readsBack :
    ReadsBack RuntimeFamily.read fun family => .string family.name := by
  intro family
  cases family <;> rfl

theorem readsBack_optionalText : ReadsBack (readOption readText) Json.ofText? := by
  rw [Json.ofText?_eq]
  exact readsBack_text.option nofun

theorem RuntimeDescriptor.readsBack :
    ReadsBack RuntimeDescriptor.format.read RuntimeDescriptor.toJson := by
  intro r
  apply read_of_fills (by decide)
  exact .written RuntimeFamily.readsBack (.written readsBack_optionalText .nil)

theorem Property.readsBack : ReadsBack Property.format.read Property.toJson := by
  intro p
  apply read_of_fills (by decide)
  exact .written readsBack_text (.written readsBack_text .nil)

theorem ExtensionMark.readsBack : ReadsBack ExtensionMark.format.read ExtensionMark.toJson := by
  intro e
  apply read_of_fills (by decide)
  exact .written readsBack_optionalText (.written readsBack_optionalText
    (.written (readsBack_flag.option nofun) (.written readsBack_optionalText
      (.written Property.readsBack.list .nil))))

theorem PointMark.readsBack : ReadsBack PointMark.format.read PointMark.toJson := by
  intro p
  apply read_of_fills (by decide)
  exact .written readsBack_optionalText (.written readsBack_optionalText .nil)

theorem TypeDeclaration.readsBack :
    ReadsBack TypeDeclaration.format.read TypeDeclaration.toJson := by
  intro t
  apply read_of_fills (by decide)
  exact .written TypeName.readsBack (.written TypeName.readsBack.list
    (.written (TypeName.readsBack.option nofun) (.written (PointMark.readsBack.option nofun)
      (.written (ExtensionMark.readsBack.option nofun) .nil))))

theorem PointDeclaration.readsBack :
    ReadsBack PointDeclaration.format.read PointDeclaration.toJson := by
  intro p
  apply read_of_fills (by decide)
  exact .written readsBack_text (.written TypeName.readsBack
    (.written readsBack_optionalText .nil))

namespace Metadata

/-- **A description is read back from its JSON.** -/
theorem readsBack : ReadsBack format.read toJson := by
  intro m
  apply read_of_fills (by decide)
  exact .written readsBack_text (.written readsBack_text
    (.written (RuntimeDescriptor.readsBack.option nofun)
      (.written PointDeclaration.readsBack.list (.written TypeDeclaration.readsBack.list .nil))))

theorem ofPayload_payload (m : Metadata) : ofPayload m.payload = .ok m := by
  rw [ofPayload, readPayload, payload, Json.ofTokens_ofPayload]
  show format.read m.toJson.tree >>= _ = _
  rw [readsBack m]
  rfl

/-- **What is drafted is what a host reads.**  Whatever texts, points, types and properties a
description holds, and whichever of its optional parts are there, its module is found to hold
the payload, and the payload is read as the description.  The one condition is that the body
of the section is shorter than 2^32 bytes. -/
theorem module_round_trip (m : Metadata)
    (h : (WasmModule.sized (Utf8.encode metadataSection) ++ m.payload).length < UInt32.size) :
    WasmModule.findSection m.toModule metadataSection = .ok (some m.payload) ∧
    ∀ path, ofPayloadAt path m.payload = .ok m := by
  refine ⟨WasmModule.findSection_withSection metadataSection h, ?_⟩
  intro path
  rw [ofPayloadAt, ofPayload_payload]

/-- A description whose texts need every kind of escape, and whose marks say nothing. -/
def escaping : Metadata where
  name := "a\"b\\c\td\u0001é€😀"
  version := "1.2"
  runtime := some ⟨.core, none⟩
  points := [⟨"/A", ⟨"a::B"⟩, some "\n"⟩]
  types := [{ name := ⟨"T"⟩, implements := [⟨"a::B"⟩], point := some {}, extension := some {} },
    { name := ⟨""⟩, base := some ⟨"T"⟩,
      extension := some { enabled := some false, properties := [⟨"k", "\u007f"⟩] } }]

/-- The module of that description is small enough, and the host reads all of it back: the
texts, and the marks that say nothing as marks that are there. -/
theorem module_round_trip_of_escaping :
    (WasmModule.sized (Utf8.encode metadataSection) ++ escaping.payload).length < UInt32.size ∧
    WasmModule.findSection escaping.toModule metadataSection = .ok (some escaping.payload) ∧
    ofPayloadAt ⟨"m.wasm"⟩ escaping.payload = .ok escaping := by
  have hsize : (WasmModule.sized (Utf8.encode metadataSection) ++ escaping.payload).length <
      UInt32.size := by
    rw [payload, Json.compact, Utf8.encode_ofList]
    decide +kernel
  obtain ⟨hfound, hread⟩ := module_round_trip escaping hsize
  exact ⟨hsize, hfound, hread _⟩

end Metadata
end PluginHost
