import Mathlib.Algebra.GroupWithZero.Nat
import PluginHost.Proofs.Leb128.Spelling

/-! # Sizes that do not fit

What a number looks like is told by its bytes alone: every byte but the last says that another
follows (`Leb128.IsEncoding`), and the number is the sum of the groups of seven bits, each worth
128 times as much as the one in front of it (`Leb128.number`).  Sizes have 32 bits, and five bytes
have room for 35.  The five bytes are counted, but nobody looks at the three bits that are left
over, so an encoding of 2^32 or more is read as what is left of its number
(`Leb128.excess_is_lost`).

The main statement is `Leb128.right_below_overflow`: which input is read as what, that a size
is the number of its encoding exactly when the number fits, and which input is an error. -/
namespace PluginHost
namespace Leb128

variable {limit n : Nat} {bytes rest : List UInt8} {b : UInt8}

/-- Bytes that encode one number: all but the last say that another follows. -/
def IsEncoding (bytes : List UInt8) : Prop :=
  ∃ front last, bytes = front ++ [last] ∧ (∀ b ∈ front, 128 ≤ b) ∧ last < 128

/-- The number that bytes encode, the sum of their groups of seven bits. -/
def number (bytes : List UInt8) : Nat :=
  (bytes.zipIdx.map fun group => group.1.toNat % 128 * Nat.pow 128 group.2).sum

/-- The input is an encoding of at most five bytes, and then the rest. -/
structure StartsWith (bytes encoding rest : List UInt8) : Prop where
  encodes : IsEncoding encoding
  length_le : encoding.length ≤ 5
  append : bytes = encoding ++ rest

/-! ## Byte by byte -/

theorem isEncoding_last (h : b < 128) : IsEncoding [b] :=
  ⟨[], b, rfl, fun _ hmem => absurd hmem List.not_mem_nil, h⟩

theorem isEncoding_cons (h : ¬b < 128) (hbytes : IsEncoding bytes) : IsEncoding (b :: bytes) := by
  obtain ⟨front, last, rfl, hfront, hlast⟩ := hbytes
  exact ⟨b :: front, last, rfl, List.forall_mem_cons.mpr ⟨UInt8.not_lt.mp h, hfront⟩, hlast⟩

/-- The first byte says whether it is the last. -/
theorem IsEncoding.cases_cons (h : IsEncoding (b :: bytes)) :
    b < 128 ∧ bytes = [] ∨ ¬b < 128 ∧ IsEncoding bytes := by
  obtain ⟨front, last, heq, hfront, hlast⟩ := h
  cases front with
  | nil =>
    obtain ⟨rfl, rfl⟩ := List.cons.inj heq
    exact .inl ⟨hlast, rfl⟩
  | cons c front =>
    obtain ⟨rfl, rfl⟩ := List.cons.inj heq
    obtain ⟨hb, hfront⟩ := List.forall_mem_cons.mp hfront
    exact .inr ⟨UInt8.not_lt.mpr hb, front, last, rfl, hfront, hlast⟩

theorem not_isEncoding_nil : ¬IsEncoding [] := by
  rintro ⟨front, last, heq, -, -⟩
  exact List.append_ne_nil_of_right_ne_nil front (List.cons_ne_nil last []) heq.symm

/-- One place further each group is worth 128 times as much. -/
theorem sum_groups_succ (groups : List (UInt8 × Nat)) :
    (groups.map fun group => group.1.toNat % 128 * Nat.pow 128 (group.2 + 1)).sum =
      128 * (groups.map fun group => group.1.toNat % 128 * Nat.pow 128 group.2).sum := by
  induction groups with
  | nil => rfl
  | cons group groups ih =>
    have hgroup : group.1.toNat % 128 * Nat.pow 128 (group.2 + 1) =
        128 * (group.1.toNat % 128 * Nat.pow 128 group.2) := by
      show group.1.toNat % 128 * (Nat.pow 128 group.2 * 128) = _
      rw [← Nat.mul_assoc, Nat.mul_comm]
    rw [List.map_cons, List.map_cons, List.sum_cons, List.sum_cons, ih, hgroup, Nat.mul_add]

theorem number_cons (b : UInt8) (bytes : List UInt8) :
    number (b :: bytes) = b.toNat % 128 + 128 * number bytes := by
  rw [number, List.zipIdx_cons, List.zipIdx_succ, List.map_cons, List.map_map, List.sum_cons,
    number, ← sum_groups_succ]
  show b.toNat % 128 * 1 + _ = _
  rw [Nat.mul_one]
  rfl

theorem number_last (h : b < 128) : number [b] = b.toNat := by
  have hb : b.toNat < 128 := UInt8.lt_iff_toNat_lt.mp h
  rw [number_cons, show number [] = 0 from rfl, Nat.mul_zero, Nat.add_zero, Nat.mod_eq_of_lt hb]

/-! ## What is read -/

/-- **A number is read exactly where its encoding stands**, if that is not too long. -/
theorem value_eq_ok_iff : value limit bytes = .ok (n, rest) ↔
    ∃ encoding, IsEncoding encoding ∧ encoding.length ≤ limit + 1 ∧ bytes = encoding ++ rest ∧
      n = number encoding := by
  constructor
  · intro h
    fun_induction value limit bytes generalizing n rest with
    | case1 => cases h
    | case2 b more hb | case4 limit b more hb =>
      obtain ⟨rfl, rfl⟩ := Prod.mk.inj (Except.ok.inj h)
      exact ⟨[b], isEncoding_last hb, by simp, rfl, (number_last hb).symm⟩
    | case3 => cases h
    | case5 limit b more hb ih =>
      obtain ⟨⟨m, rest'⟩, hm, heq⟩ := map_eq_ok_iff.mp h
      obtain ⟨rfl, rfl⟩ := Prod.mk.inj heq
      obtain ⟨encoding, hencoding, hlength, rfl, rfl⟩ := ih hm
      refine ⟨b :: encoding, isEncoding_cons hb hencoding, ?_, rfl, (number_cons b encoding).symm⟩
      rw [List.length_cons]
      omega
  · rintro ⟨encoding, hencoding, hlength, rfl, rfl⟩
    induction encoding generalizing limit with
    | nil => exact absurd hencoding not_isEncoding_nil
    | cons b encoding ih =>
      rcases hencoding.cases_cons with ⟨hb, rfl⟩ | ⟨hb, hencoding⟩
      · rw [number_last hb, List.singleton_append]
        cases limit <;> rw [value, if_pos hb]
      · rw [List.length_cons] at hlength
        cases limit with
        | zero =>
          -- A byte that says that another follows is not the only one.
          obtain rfl : encoding = [] := List.eq_nil_of_length_eq_zero (by omega)
          exact absurd hencoding not_isEncoding_nil
        | succ limit =>
          rw [List.cons_append, value, if_neg hb, ih hencoding (by omega), number_cons]
          rfl

/-- Nothing is read where no byte is the last, be it that the input ends or that the bytes are
too many. -/
theorem value_eq_error_iff {e : FramingError} : value limit bytes = .error e ↔
    e = .longInteger ∧ limit < bytes.length ∧ (∀ b ∈ bytes.take (limit + 1), 128 ≤ b) ∨
    e = .unexpectedEnd ∧ bytes.length ≤ limit ∧ ∀ b ∈ bytes, 128 ≤ b := by
  fun_induction value limit bytes with
  | case1 => simp [eq_comm]
  | case2 b more hb | case4 limit b more hb =>
    have hlow : ¬128 ≤ b := UInt8.not_le.mpr hb
    simp [hlow]
  | case3 b more hb => simp [UInt8.not_lt.mp hb, eq_comm]
  | case5 limit b more hb ih => simp [map_eq_error_iff, ih, UInt8.not_lt.mp hb]

/-- **A size is what is left of the number of its encoding.** -/
theorem decode_eq_ok_iff {size : UInt32} : decode bytes = .ok (size, rest) ↔
    ∃ encoding, StartsWith bytes encoding rest ∧ number encoding % UInt32.size = size.toNat := by
  rw [decode, map_eq_ok_iff]
  constructor
  · rintro ⟨⟨n, rest'⟩, hn, heq⟩
    obtain ⟨rfl, rfl⟩ := Prod.mk.inj heq
    obtain ⟨encoding, hencoding, hlength, happend, rfl⟩ := value_eq_ok_iff.mp hn
    exact ⟨encoding, ⟨hencoding, hlength, happend⟩, UInt32.toNat_ofNat'.symm⟩
  · rintro ⟨encoding, ⟨hencoding, hlength, happend⟩, hsize⟩
    refine ⟨(number encoding, rest),
      value_eq_ok_iff.mpr ⟨encoding, hencoding, hlength, happend, rfl⟩, ?_⟩
    have hofNat : UInt32.ofNat (number encoding) = size :=
      UInt32.toNat_inj.mp (UInt32.toNat_ofNat'.trans hsize)
    exact congrArg (·, rest) hofNat

/-- An input starts with one encoding at most. -/
theorem StartsWith.unique {encoding encoding' rest' : List UInt8}
    (h : StartsWith bytes encoding rest) (h' : StartsWith bytes encoding' rest') :
    encoding = encoding' ∧ rest = rest' := by
  have hread := value_eq_ok_iff.mpr ⟨encoding, h.encodes, h.length_le, h.append, rfl⟩
  have hread' := value_eq_ok_iff.mpr ⟨encoding', h'.encodes, h'.length_le, h'.append, rfl⟩
  obtain ⟨-, rfl⟩ := Prod.mk.inj (Except.ok.inj (hread.symm.trans hread'))
  exact ⟨List.append_cancel_right (h.append.symm.trans h'.append), rfl⟩

/-- **A size is right when it fits, and only then.**  The input is read exactly when it starts with
an encoding of at most five bytes, which is taken off whatever it encodes; the size is the number
without the bits that do not fit.  So a size is the number of its encoding, for every size and
every rest, exactly when an encoding that the input starts with is below 2^32.  Five bytes of
which none is the last are an error, and so are fewer bytes of which none is. -/
theorem right_below_overflow (bytes : List UInt8) :
    (∀ size rest, decode bytes = .ok (size, rest) ↔
      ∃ encoding, StartsWith bytes encoding rest ∧
        number encoding % UInt32.size = size.toNat) ∧
    ((∀ size rest, decode bytes = .ok (size, rest) ↔
        ∃ encoding, StartsWith bytes encoding rest ∧ number encoding = size.toNat) ↔
      ∀ encoding rest, StartsWith bytes encoding rest → number encoding < UInt32.size) ∧
    ∀ e, decode bytes = .error e ↔
      e = .longInteger ∧ 5 ≤ bytes.length ∧ (∀ b ∈ bytes.take 5, 128 ≤ b) ∨
      e = .unexpectedEnd ∧ bytes.length < 5 ∧ ∀ b ∈ bytes, 128 ≤ b := by
  refine ⟨fun _ _ => decode_eq_ok_iff, ⟨fun hright encoding rest hstarts => ?_,
    fun hfits size rest => ?_⟩, fun e => ?_⟩
  · have hread : decode bytes = .ok (UInt32.ofNat (number encoding), rest) :=
      decode_eq_ok_iff.mpr ⟨encoding, hstarts, UInt32.toNat_ofNat'.symm⟩
    obtain ⟨other, hother, hnumber⟩ := (hright _ _).mp hread
    rw [(hstarts.unique hother).1, hnumber]
    exact UInt32.toNat_lt_size _
  · rw [decode_eq_ok_iff]
    constructor
    · rintro ⟨encoding, hstarts, hsize⟩
      exact ⟨encoding, hstarts, by rwa [Nat.mod_eq_of_lt (hfits encoding rest hstarts)] at hsize⟩
    · rintro ⟨encoding, hstarts, hsize⟩
      exact ⟨encoding, hstarts, by rw [Nat.mod_eq_of_lt (hfits encoding rest hstarts), hsize]⟩
  · have hfewer : bytes.length < 5 ↔ bytes.length ≤ 4 := Nat.lt_succ_iff
    rw [decode, map_eq_error_iff, value_eq_error_iff, hfewer]
    rfl

/-- The greatest size is read from five bytes, and the byte behind them is left. -/
theorem right_below_overflow_of_greatest :
    decode [0xFF, 0xFF, 0xFF, 0xFF, 0x0F, 0x07] = .ok (4294967295, [0x07]) := by
  have hencodes : IsEncoding [0xFF, 0xFF, 0xFF, 0xFF, 0x0F] :=
    ⟨[0xFF, 0xFF, 0xFF, 0xFF], 0x0F, rfl, by decide +kernel, by decide⟩
  have hstarts : StartsWith [0xFF, 0xFF, 0xFF, 0xFF, 0x0F, 0x07] [0xFF, 0xFF, 0xFF, 0xFF, 0x0F]
      [0x07] := ⟨hencodes, by decide, rfl⟩
  obtain ⟨-, hright, -⟩ := right_below_overflow [0xFF, 0xFF, 0xFF, 0xFF, 0x0F, 0x07]
  refine (hright.mpr fun encoding rest h => ?_) _ _ |>.mpr ⟨_, hstarts, by decide⟩
  rw [(h.unique hstarts).1]
  decide

/-- **The excess is lost**: five bytes that encode 2^32 + 2 are read as 2, which they do not
encode. -/
theorem excess_is_lost :
    decode [0x82, 0x80, 0x80, 0x80, 0x10] = .ok (2, []) ∧
    number [0x82, 0x80, 0x80, 0x80, 0x10] = 4294967298 ∧
    ¬∃ encoding, StartsWith [0x82, 0x80, 0x80, 0x80, 0x10] encoding [] ∧
      number encoding = (2 : UInt32).toNat := by
  refine ⟨eq_ok_of_toOption (by decide), by decide, ?_⟩
  rintro ⟨encoding, hstarts, hnumber⟩
  rw [← List.append_nil encoding, ← hstarts.append] at hnumber
  exact absurd hnumber (by decide)

end Leb128
end PluginHost
