import PluginHost.Leb128
import PluginHost.Text.Utf8

/-! # WebAssembly modules

A module is a header and a row of sections, each with its kind, its size and its
body; the body of a custom section starts with its name.  Only this framing is
read here, so any module can be inspected whatever its code is for.

`WasmModule.findSection` looks for a custom section by name, and
`WasmModule.withSection` is the module that has no other section. -/
namespace PluginHost
namespace WasmModule

/-- The first four bytes of a module. -/
def magic : List UInt8 := [0x00, 0x61, 0x73, 0x6D]

/-- The version of the format, which follows them. -/
def formatVersion : List UInt8 := [1, 0, 0, 0]

/-- The kind of custom sections. -/
def customKind : UInt8 := 0

/-- The first `count` bytes of the input, and what follows them. -/
def take (count : Nat) (bytes : List UInt8) : Except FramingError (List UInt8 × List UInt8) :=
  let front := bytes.take count
  if front.length = count then .ok (front, bytes.drop count) else .error .pastEnd

/-- As many bytes as the size at the start of the input says, and what follows
them. -/
def takeSized (bytes : List UInt8) : Except FramingError (List UInt8 × List UInt8) := do
  let (size, rest) ← Leb128.decode bytes
  take size.toNat rest

/-- The kind and the body of the first section, and what follows it. -/
def takeSection : List UInt8 → Except FramingError ((UInt8 × List UInt8) × List UInt8)
  | [] => .error .unexpectedEnd
  | kind :: bytes => do
    let (body, rest) ← takeSized bytes
    return ((kind, body), rest)

theorem length_take {count : Nat} {bytes front rest : List UInt8}
    (h : take count bytes = .ok (front, rest)) : rest.length ≤ bytes.length := by
  unfold take at h
  dsimp only at h
  split at h
  · obtain ⟨-, rfl⟩ := Prod.mk.inj (Except.ok.inj h)
    simp
  · simp at h

theorem length_takeSized {bytes front rest : List UInt8}
    (h : takeSized bytes = .ok (front, rest)) : rest.length < bytes.length := by
  unfold takeSized at h
  cases hd : Leb128.decode bytes with
  | error e => simp [hd, bind, Except.bind] at h
  | ok p =>
    obtain ⟨size, rest'⟩ := p
    simp only [hd, bind, Except.bind] at h
    have := length_take h
    have := Leb128.length_decode hd
    omega

theorem length_takeSection {bytes rest : List UInt8} {s : UInt8 × List UInt8}
    (h : takeSection bytes = .ok (s, rest)) : rest.length < bytes.length := by
  cases bytes with
  | nil => simp [takeSection] at h
  | cons kind bytes =>
    cases ht : takeSized bytes with
    | error e => simp [takeSection, ht, bind, Except.bind] at h
    | ok p =>
      obtain ⟨body, rest'⟩ := p
      simp only [takeSection, ht, bind, Except.bind, pure, Except.pure, Except.ok.injEq,
        Prod.mk.injEq] at h
      have := length_takeSized ht
      simp only [List.length_cons, ← h.2]; omega

/-- What follows the name of the first custom section called `name` in a row of
sections.  What stands behind that section is not looked at. -/
def findIn (name : List UInt8) (bytes : List UInt8) :
    Except FramingError (Option (List UInt8)) :=
  if bytes.isEmpty then .ok none
  else match h : takeSection bytes with
    | .error e => .error e
    | .ok ((kind, body), rest) =>
      have := length_takeSection h
      if kind ≠ customKind then findIn name rest
      else match takeSized body with
        | .error e => .error e
        | .ok (found, payload) =>
          if found = name then .ok (some payload) else findIn name rest
termination_by bytes.length

/-- The sections of a module. -/
def sections (bytes : List UInt8) : Except FramingError (List UInt8) := do
  let (first, rest) ← take 4 bytes
  if first ≠ magic then throw .notModule
  let (second, rest) ← take 4 rest
  if second ≠ formatVersion then throw .unsupportedVersion
  return rest

/-- The payload of the first custom section of a module called `name`. -/
def findSection (bytes : List UInt8) (name : String) :
    Except FramingError (Option (List UInt8)) := do
  findIn (Utf8.encode name) (← sections bytes)

/-- Bytes behind their number. -/
def sized (bytes : List UInt8) : List UInt8 := Leb128.encode bytes.length ++ bytes

/-- The module whose only section is custom, with this name and payload. -/
def withSection (name : String) (payload : List UInt8) : List UInt8 :=
  magic ++ formatVersion ++ customKind :: sized (sized (Utf8.encode name) ++ payload)

end WasmModule
end PluginHost
