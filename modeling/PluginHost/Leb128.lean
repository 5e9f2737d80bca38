/-! # Variable-length integers

Sizes in a module are unsigned LEB128: seven bits a byte, the lowest first, and
the highest bit of a byte says that another byte follows.

`Leb128.decode` reads one of at most five bytes into 32 bits, so bits of the
fifth byte that do not fit are lost; `length_decode` says that it always uses up
part of the input.  `Leb128.encode` writes the shortest form. -/
namespace PluginHost

/-- Why the sections of a module cannot be read. -/
inductive FramingError where
  /-- The input ends where a byte is due. -/
  | unexpectedEnd
  /-- An integer takes more than five bytes. -/
  | longInteger
  /-- The input is shorter than it says it is. -/
  | pastEnd
  | notModule
  | unsupportedVersion
deriving DecidableEq, Repr

/-- The wording of a framing error. -/
def FramingError.message : FramingError → String
  | .unexpectedEnd => "unexpected end of module"
  | .longInteger => "malformed LEB128 integer"
  | .pastEnd => "section extends past end of module"
  | .notModule => "not a WebAssembly module"
  | .unsupportedVersion => "unsupported WebAssembly version"

namespace Leb128

/-- The value of an encoding of at most `limit + 1` bytes at the start of the
input, and what follows it. -/
def value : (limit : Nat) → List UInt8 → Except FramingError (Nat × List UInt8)
  | _, [] => .error .unexpectedEnd
  | 0, b :: rest => if b < 128 then .ok (b.toNat, rest) else .error .longInteger
  | limit + 1, b :: rest =>
    if b < 128 then .ok (b.toNat, rest)
    else (value limit rest).map fun (n, rest) => (b.toNat % 128 + 128 * n, rest)

/-- The size at the start of the input, and what follows it. -/
def decode (bytes : List UInt8) : Except FramingError (UInt32 × List UInt8) :=
  (value 4 bytes).map fun (n, rest) => (UInt32.ofNat n, rest)

/-- The shortest encoding of a number. -/
def encode (n : Nat) : List UInt8 :=
  if n < 128 then [UInt8.ofNat n] else UInt8.ofNat (n % 128 + 128) :: encode (n / 128)

theorem length_value {limit n : Nat} {bytes rest : List UInt8}
    (h : value limit bytes = .ok (n, rest)) : rest.length < bytes.length := by
  fun_induction value limit bytes generalizing n rest with
  | case1 => simp at h
  | case2 b r _ => simp only [Except.ok.injEq, Prod.mk.injEq] at h; simp [← h.2]
  | case3 => simp at h
  | case4 limit b r _ => simp only [Except.ok.injEq, Prod.mk.injEq] at h; simp [← h.2]
  | case5 limit b r _ ih =>
    cases hv : value limit r with
    | error e => simp [hv, Except.map] at h
    | ok p =>
      obtain ⟨m, rest'⟩ := p
      simp only [hv, Except.map, Except.ok.injEq, Prod.mk.injEq] at h
      have := ih hv
      simp only [List.length_cons, ← h.2]; omega

theorem length_decode {n : UInt32} {bytes rest : List UInt8}
    (h : decode bytes = .ok (n, rest)) : rest.length < bytes.length := by
  cases hv : value 4 bytes with
  | error e => simp [decode, hv, Except.map] at h
  | ok p =>
    obtain ⟨m, rest'⟩ := p
    simp only [decode, hv, Except.map, Except.ok.injEq, Prod.mk.injEq] at h
    exact h.2 ▸ length_value hv

end Leb128
end PluginHost
