import PluginHost.Proofs.Leb128.Spelling
import PluginHost.WasmModule

/-! # The framing of modules

A module is a header and a row of sections, and a section is its kind, the size of its
body, and the body.  `IsSized`, `IsSection`, `Passed` and `Passable` say so as a grammar
on bytes that knows of no reader; only the value of a size is what `Leb128.decode` reads.
The steps of the search take exactly what the grammar describes (`reads_takeSection`), so
the search finds a section exactly when it stands behind sections that may be passed, and
finds none exactly when nothing else is there (`findIn_eq_ok_iff`).
`findSection_accepts_framing` puts this together for whole modules; one that was written
with a section is such a module (`findSection_withSection`). -/
namespace PluginHost
namespace WasmModule

/-! ## The grammar -/

/-- Bytes behind a size that is their number. -/
def IsSized (content bytes : List UInt8) : Prop :=
  ∃ encoding size, Leb128.Spells size encoding ∧ size.toNat = content.length ∧
    bytes = encoding ++ content

/-- A complete section with its kind and its body. -/
def IsSection (s : UInt8 × List UInt8) (bytes : List UInt8) : Prop :=
  ∃ sized, IsSized s.2 sized ∧ bytes = s.1 :: sized

/-- The body of a custom section: its name and then its payload. -/
def IsNamed (name payload body : List UInt8) : Prop :=
  ∃ sized, IsSized name sized ∧ body = sized ++ payload

/-- A complete section that is not custom, or has another name. -/
inductive Passed (name : List UInt8) : List UInt8 → Prop
  | kind {kind : UInt8} {body bytes : List UInt8} (complete : IsSection (kind, body) bytes)
      (other : kind ≠ customKind) : Passed name bytes
  | name {found payload body bytes : List UInt8} (complete : IsSection (customKind, body) bytes)
      (named : IsNamed found payload body) (other : found ≠ name) : Passed name bytes

/-- Nothing but complete sections of which none is custom and has the name. -/
inductive Passable (name : List UInt8) : List UInt8 → Prop
  | nil : Passable name []
  | cons {first rest : List UInt8} (passed : Passed name first) (others : Passable name rest) :
      Passable name (first ++ rest)

/-- A complete custom section with the name and the payload. -/
def IsCustom (name payload bytes : List UInt8) : Prop :=
  ∃ body, IsSection (customKind, body) bytes ∧ IsNamed name payload body

/-- A header and sections of which the first custom one of the name has the payload.  It does
not matter what follows that section. -/
def HasSection (name payload bytes : List UInt8) : Prop :=
  ∃ before target behind, bytes = magic ++ formatVersion ++ (before ++ (target ++ behind)) ∧
    Passable name before ∧ IsCustom name payload target

/-- A header and complete sections, none of which is custom and has the name. -/
def LacksSection (name bytes : List UInt8) : Prop :=
  ∃ row, bytes = magic ++ formatVersion ++ row ∧ Passable name row

/-! ## The steps of the search -/

theorem reads_take (count : Nat) :
    Reads (fun front bytes => front.length = count ∧ front = bytes) (take count) := by
  intro bytes front rest
  unfold take
  dsimp only
  constructor
  · intro h
    split at h
    · rename_i hlength
      obtain ⟨rfl, rfl⟩ := Prod.mk.inj (Except.ok.inj h)
      exact ⟨bytes.take count, ⟨hlength, rfl⟩, (List.take_append_drop count bytes).symm⟩
    · cases h
  · rintro ⟨_, ⟨rfl, rfl⟩, rfl⟩
    rw [List.take_left, if_pos rfl, List.drop_left]

theorem reads_takeSized : Reads IsSized takeSized := by
  intro bytes content rest
  constructor
  · intro h
    obtain ⟨⟨size, behind⟩, hsize, htake⟩ := bind_eq_ok h
    obtain ⟨encoding, hspells, rfl⟩ := (Leb128.reads_decode _ _ _).mp hsize
    obtain ⟨_, ⟨hlength, rfl⟩, rfl⟩ := (reads_take _ _ _ _).mp htake
    exact ⟨encoding ++ content, ⟨encoding, size, hspells, hlength.symm, rfl⟩,
      (List.append_assoc ..).symm⟩
  · rintro ⟨_, ⟨encoding, size, hspells, hlength, rfl⟩, rfl⟩
    have hsize := (Leb128.reads_decode (encoding ++ (content ++ rest)) size _).mpr
      ⟨encoding, hspells, rfl⟩
    have htake := (reads_take size.toNat (content ++ rest) content rest).mpr
      ⟨content, ⟨hlength.symm, rfl⟩, rfl⟩
    rw [takeSized, List.append_assoc, hsize]
    exact htake

theorem reads_takeSection : Reads IsSection takeSection := by
  intro bytes s rest
  constructor
  · intro h
    cases bytes with
    | nil => cases h
    | cons kind bytes =>
      obtain ⟨⟨body, rest'⟩, hbody, heq⟩ := bind_eq_ok h
      obtain ⟨rfl, rfl⟩ := Prod.mk.inj (Except.ok.inj heq)
      obtain ⟨sized, hsized, rfl⟩ := (reads_takeSized _ _ _).mp hbody
      exact ⟨kind :: sized, ⟨sized, hsized, rfl⟩, rfl⟩
  · rintro ⟨_, ⟨sized, hsized, rfl⟩, rfl⟩
    rw [List.cons_append, takeSection, (reads_takeSized _ _ _).mpr ⟨sized, hsized, rfl⟩]
    rfl

/-- What a section uses up is not empty, and the body stands at its end. -/
theorem IsSection.suffix {s : UInt8 × List UInt8} {bytes : List UInt8} (h : IsSection s bytes) :
    s.2 <:+ bytes ∧ s.2.length < bytes.length := by
  obtain ⟨_, ⟨encoding, size, -, -, rfl⟩, rfl⟩ := h
  refine ⟨⟨s.1 :: encoding, rfl⟩, ?_⟩
  rw [List.length_cons, List.length_append]
  omega

/-! ## The search -/

/-- What the search of a row of sections is to answer. -/
def Finds (name : List UInt8) (result : Option (List UInt8)) (bytes : List UInt8) : Prop :=
  match result with
  | none => Passable name bytes
  | some payload => ∃ before target behind, bytes = before ++ (target ++ behind) ∧
      Passable name before ∧ IsCustom name payload target

variable {name payload bytes first rest : List UInt8} {result : Option (List UInt8)}

theorem Finds.behind (h : Finds name result rest) (hfirst : Passed name first) :
    Finds name result (first ++ rest) := by
  cases result with
  | none => exact .cons hfirst h
  | some payload =>
    obtain ⟨before, target, behind, rfl, hbefore, htarget⟩ := h
    exact ⟨first ++ before, target, behind, (List.append_assoc ..).symm, .cons hfirst hbefore,
      htarget⟩

/-- The search looks at the first section and may go on. -/
theorem findIn_of_takeSection {kind : UInt8} {body : List UInt8}
    (h : takeSection bytes = .ok ((kind, body), rest)) :
    findIn name bytes =
      if kind ≠ customKind then findIn name rest
      else match takeSized body with
        | .error e => .error e
        | .ok (found, payload) =>
          if found = name then .ok (some payload) else findIn name rest := by
  rw [findIn]
  split
  · rename_i hempty
    rw [List.isEmpty_iff.mp hempty] at h
    cases h
  · split
    · rename_i hfail
      rw [h] at hfail
      cases hfail
    · rename_i hsection
      obtain ⟨hs, rfl⟩ := Prod.mk.inj (Except.ok.inj (h.symm.trans hsection))
      obtain ⟨rfl, rfl⟩ := Prod.mk.inj hs
      rfl

theorem findIn_passed (h : Passed name first) : findIn name (first ++ rest) = findIn name rest := by
  cases h with
  | kind complete other =>
    have htake := (reads_takeSection (first ++ rest) _ rest).mpr ⟨first, complete, rfl⟩
    rw [findIn_of_takeSection htake, if_pos other]
  | name complete named other =>
    have htake := (reads_takeSection (first ++ rest) _ rest).mpr ⟨first, complete, rfl⟩
    rw [findIn_of_takeSection htake, if_neg (not_not_intro rfl), (reads_takeSized _ _ _).mpr named]
    exact if_neg other

theorem findIn_custom (h : IsCustom name payload first) :
    findIn name (first ++ rest) = .ok (some payload) := by
  obtain ⟨body, complete, named⟩ := h
  have htake := (reads_takeSection (first ++ rest) _ rest).mpr ⟨first, complete, rfl⟩
  rw [findIn_of_takeSection htake, if_neg (not_not_intro rfl), (reads_takeSized _ _ _).mpr named]
  exact if_pos rfl

/-- An answer comes of the end of the row, of a section that is passed and the sections
behind it, or of a section that is found. -/
theorem findIn_cases (h : findIn name bytes = .ok result) :
    (bytes = [] ∧ result = none) ∨
    (∃ first rest, bytes = first ++ rest ∧ Passed name first ∧ rest.length < bytes.length ∧
      findIn name rest = .ok result) ∨
    ∃ first rest payload, bytes = first ++ rest ∧ IsCustom name payload first ∧
      result = some payload := by
  cases hsection : takeSection bytes with
  | error e =>
    rw [findIn] at h
    split at h
    · rename_i hempty
      exact .inl ⟨List.isEmpty_iff.mp hempty, (Except.ok.inj h).symm⟩
    · split at h
      · cases h
      · rename_i hok
        rw [hsection] at hok
        cases hok
  | ok taken =>
    obtain ⟨⟨kind, body⟩, rest⟩ := taken
    rw [findIn_of_takeSection hsection] at h
    have hshorter := length_takeSection hsection
    obtain ⟨first, complete, hbytes⟩ := (reads_takeSection _ _ _).mp hsection
    split at h
    · rename_i hkind
      exact .inr (.inl ⟨first, rest, hbytes, .kind complete hkind, hshorter, h⟩)
    · rename_i hkind
      obtain rfl : kind = customKind := Decidable.not_not.mp hkind
      split at h
      · cases h
      · rename_i found payload hname
        have named := (reads_takeSized _ _ _).mp hname
        split at h
        · rename_i heq
          obtain rfl := heq
          exact .inr (.inr ⟨first, rest, payload, hbytes, ⟨body, complete, named⟩,
            (Except.ok.inj h).symm⟩)
        · rename_i hother
          exact .inr (.inl ⟨first, rest, hbytes, .name complete named hother, hshorter, h⟩)

/-- **The search answers what the grammar says.** -/
theorem findIn_eq_ok_iff : findIn name bytes = .ok result ↔ Finds name result bytes := by
  constructor
  · intro h
    induction hlength : bytes.length using Nat.strongRecOn generalizing bytes with
    | ind n ih =>
      obtain ⟨rfl, rfl⟩ | ⟨first, rest, rfl, hfirst, hshorter, hrest⟩ |
        ⟨first, rest, payload, rfl, htarget, rfl⟩ := findIn_cases h
      · exact .nil
      · exact (ih rest.length (hlength ▸ hshorter) hrest rfl).behind hfirst
      · exact ⟨[], first, rest, rfl, .nil, htarget⟩
  · have hpass {row behind : List UInt8} (hrow : Passable name row) :
        findIn name (row ++ behind) = findIn name behind := by
      induction hrow with
      | nil => rfl
      | cons hfirst _ ih => rw [List.append_assoc, findIn_passed hfirst, ih]
    intro h
    cases result with
    | none =>
      rw [← List.append_nil bytes, hpass h, findIn]
      rfl
    | some payload =>
      obtain ⟨before, target, behind, rfl, hbefore, htarget⟩ := h
      rw [hpass hbefore, findIn_custom htarget]

/-! ## Modules -/

/-- The sections of a module stand behind its header. -/
theorem sections_eq_ok_iff :
    sections bytes = .ok rest ↔ bytes = magic ++ formatVersion ++ rest := by
  constructor
  · intro h
    obtain ⟨⟨first, behind⟩, hfirst, h⟩ := bind_eq_ok h
    dsimp only at h
    split at h
    · cases h
    · rename_i hmagic
      obtain ⟨⟨second, behind'⟩, hsecond, h⟩ := bind_eq_ok h
      dsimp only at h
      split at h
      · cases h
      · rename_i hversion
        obtain rfl := Except.ok.inj h
        obtain ⟨_, ⟨-, rfl⟩, rfl⟩ := (reads_take 4 _ _ _).mp hfirst
        obtain ⟨_, ⟨-, rfl⟩, rfl⟩ := (reads_take 4 _ _ _).mp hsecond
        rw [Decidable.not_not.mp hmagic, Decidable.not_not.mp hversion, List.append_assoc]
  · rintro rfl
    rfl

theorem findSection_eq_ok_iff {name : String} : findSection bytes name = .ok result ↔
    ∃ row, bytes = magic ++ formatVersion ++ row ∧ Finds (Utf8.encode name) result row := by
  constructor
  · intro h
    obtain ⟨row, hrow, hfind⟩ := bind_eq_ok h
    exact ⟨row, sections_eq_ok_iff.mp hrow, findIn_eq_ok_iff.mp hfind⟩
  · rintro ⟨row, hrow, hfind⟩
    rw [findSection, sections_eq_ok_iff.mpr hrow]
    exact findIn_eq_ok_iff.mpr hfind

/-- Bytes that are not too many stand behind their number. -/
theorem isSized_sized (h : bytes.length < UInt32.size) : IsSized bytes (sized bytes) :=
  ⟨Leb128.encode bytes.length, UInt32.ofNat bytes.length, Leb128.spells_encode h,
    UInt32.toNat_ofNat_of_lt' h, rfl⟩

/-- The only section of a module is found if its size can be written. -/
theorem findSection_withSection (name : String)
    (h : (sized (Utf8.encode name) ++ payload).length < UInt32.size) :
    findSection (withSection name payload) name = .ok (some payload) := by
  have hname : (Utf8.encode name).length < UInt32.size := by
    refine Nat.lt_of_le_of_lt ?_ h
    rw [sized, List.length_append, List.length_append]
    omega
  let only := customKind :: sized (sized (Utf8.encode name) ++ payload)
  have hcustom : IsCustom (Utf8.encode name) payload only :=
    ⟨_, ⟨_, isSized_sized h, rfl⟩, _, isSized_sized hname, rfl⟩
  rw [findSection_eq_ok_iff]
  exact ⟨only, rfl, [], only, [], (List.append_nil only).symm, .nil, hcustom⟩

/-- **The search for a custom section accepts exactly the framing grammar.**  It answers with
a payload when the first custom section of the name has this payload and all in front of it
is complete; that there is none, when the module is complete to its end and has none; and
with an error for all other bytes.  Each step of it uses up a front part of what is left,
which is not empty and holds the body of the section, so no step looks behind the end and
the search comes to one. -/
theorem findSection_accepts_framing (bytes : List UInt8) (name : String) :
    (∀ payload, findSection bytes name = .ok (some payload) ↔
      HasSection (Utf8.encode name) payload bytes) ∧
    (findSection bytes name = .ok none ↔ LacksSection (Utf8.encode name) bytes) ∧
    ((∃ e, findSection bytes name = .error e) ↔
      (¬ ∃ payload, HasSection (Utf8.encode name) payload bytes) ∧
        ¬ LacksSection (Utf8.encode name) bytes) ∧
    ∀ left s rest, takeSection left = .ok (s, rest) →
      ∃ front, left = front ++ rest ∧ s.2 <:+ front ∧ rest.length < left.length := by
  have hsome : ∀ payload, findSection bytes name = .ok (some payload) ↔
      HasSection (Utf8.encode name) payload bytes := by
    intro payload
    rw [findSection_eq_ok_iff]
    constructor
    · rintro ⟨_, rfl, before, target, behind, rfl, hbefore, htarget⟩
      exact ⟨before, target, behind, rfl, hbefore, htarget⟩
    · rintro ⟨before, target, behind, rfl, hbefore, htarget⟩
      exact ⟨_, rfl, before, target, behind, rfl, hbefore, htarget⟩
  have hnone : findSection bytes name = .ok none ↔ LacksSection (Utf8.encode name) bytes :=
    findSection_eq_ok_iff
  refine ⟨hsome, hnone, ?_, ?_⟩
  · simp only [← hsome, ← hnone]
    rcases findSection bytes name with e | _ | payload <;> simp
  · intro left s rest h
    obtain ⟨front, hfront, rfl⟩ := (reads_takeSection left s rest).mp h
    exact ⟨front, rfl, hfront.suffix.1, length_takeSection h⟩

/-- A module of three sections: a custom one with an empty name, one of another kind whose
size is written with more bytes than it needs, and the one that is looked for. -/
def threeSections : List UInt8 :=
  magic ++ formatVersion ++ [0, 2, 0, 9] ++ [1, 0x81, 0x00, 7] ++ [0, 4, 1, 0x61, 5, 6]

/-- The third section is found, whatever stands behind it; a name that no section has is not
found; and a module that breaks off is an error. -/
theorem findSection_accepts_framing_of_three :
    HasSection (Utf8.encode "a") [5, 6] (threeSections ++ [0xFF]) ∧
    LacksSection (Utf8.encode "b") threeSections ∧
    ¬ LacksSection (Utf8.encode "b") (threeSections ++ [0xFF]) ∧
    takeSection [0, 4, 1, 0x61, 5, 6] = .ok ((0, [1, 0x61, 5, 6]), []) ∧
    ∃ front : List UInt8, [0, 4, 1, 0x61, 5, 6] = front ++ [] ∧ [1, 0x61, 5, 6] <:+ front := by
  have hstep : takeSection [0, 4, 1, 0x61, 5, 6] = .ok ((0, [1, 0x61, 5, 6]), []) :=
    eq_ok_of_toOption (by decide +kernel)
  obtain ⟨hsome, -, -, hsteps⟩ := findSection_accepts_framing (threeSections ++ [0xFF]) "a"
  obtain ⟨-, hnone, -, -⟩ := findSection_accepts_framing threeSections "b"
  obtain ⟨-, -, herror, -⟩ := findSection_accepts_framing (threeSections ++ [0xFF]) "b"
  refine ⟨(hsome [5, 6]).mp (eq_ok_of_toOption (by decide +kernel)),
    hnone.mp (eq_ok_of_toOption (by decide +kernel)), ?_, hstep, ?_⟩
  · exact (herror.mp (exists_error_of_toOption (by decide +kernel))).2
  · obtain ⟨front, hfront, hbody, -⟩ := hsteps _ _ _ hstep
    exact ⟨front, hfront, hbody⟩

end WasmModule
end PluginHost
