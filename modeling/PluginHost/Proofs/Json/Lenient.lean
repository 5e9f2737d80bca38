import Mathlib.Data.List.Forall2
import Mathlib.Data.List.Nodup
import Mathlib.Data.List.Pairwise
import PluginHost.Proofs.Json.Changes
import PluginHost.Proofs.Json.Records
import PluginHost.Proofs.Json.Structure

/-! # Records that tolerate changes

A record takes its members one after the other: it skips a member whose name is no field, and
stores any other in a field that has not been seen (`RecordFormat.Takes`).  Two fields that commute
may be stored in either order, so the members of a record may trade places (`TakesAll.perm`); and
what has been seen matters only for the names that are still to come (`TakesAll.mono`).

`RecordFormat.Lenient format fields` collects what this needs of a format.  The reader of a lenient
format tolerates all changes of records of this shape (`RecordFormat.Lenient.tolerates`). -/
namespace PluginHost
open JsonTree

variable {α β γ : Type}

/-- Two fields that can be stored in either order. -/
def RecordField.Commutes (field other : RecordField α) : Prop :=
  ∀ value value' record last,
    (∃ next, field.store value record = .ok next ∧ other.store value' next = .ok last) ↔
      ∃ next, other.store value' record = .ok next ∧ field.store value next = .ok last

instance : Std.Symm (@RecordField.Commutes α) where
  symm _ _ h value value' record last := (h value' value record last).symm

/-- A field of a shape, in records that are blank at first. -/
structure RecordField.Fits (blank : α) (entry : String × Shape) (field : RecordField α) : Prop where
  name : field.name = entry.1
  intact {value : JsonTree} {record next : α} (h : field.store value record = .ok next) :
    value.intact = true
  kept {value value' : JsonTree} {record next : α} (hchange : Change entry.2 value value')
    (h : field.store value record = .ok next) : field.store value' record = .ok next
  /-- What may be absent is blank without it. -/
  absent {shape : Shape} (h : entry.2 = .option shape) :
    field.store (.scalar .null) blank = .ok blank

/-- A format whose records tolerate changes. -/
structure RecordFormat.Lenient (format : RecordFormat α) (fields : List (String × Shape)) :
    Prop where
  fits : List.Forall₂ (RecordField.Fits format.blank) fields format.fields
  distinct : (fields.map Prod.fst).Nodup
  commutes : format.fields.Pairwise RecordField.Commutes

namespace RecordFormat

variable {format : RecordFormat α} {fields : List (String × Shape)}
variable {seen seen' : List String} {record next : α}
variable {members members' : List (JsonToken × JsonTree)}

/-! ## Taking members -/

/-- One member is taken: the names that have been seen and the record, before and after. -/
inductive Takes (format : RecordFormat α) :
    List String → α → JsonToken × JsonTree → List String → α → Prop
  | skip {name : String} {value : JsonTree} {seen : List String} {record : α}
      (hname : format.field? name = none) (hvalue : value.intact = true) :
      Takes format seen record (Json.textToken name, value) seen record
  | store {name : String} {value : JsonTree} {field : RecordField α} {seen : List String}
      {record next : α} (hfield : format.field? name = some field) (hnew : name ∉ seen)
      (hstore : field.store value record = .ok next) :
      Takes format seen record (Json.textToken name, value) (name :: seen) next

theorem readMember_eq_ok_iff {member : JsonToken × JsonTree} :
    format.readMember (seen, record) member = .ok (seen', next) ↔
      Takes format seen record member seen' next := by
  constructor
  · intro h
    unfold readMember at h
    split at h
    · rename_i seen record name value heq
      obtain ⟨rfl, rfl⟩ := Prod.mk.inj heq
      split at h
      · rename_i hname
        split at h
        · rename_i hvalue
          obtain ⟨rfl, rfl⟩ := Prod.mk.inj (Except.ok.inj h)
          exact .skip hname hvalue
        · cases h
      · rename_i field hfield
        split at h
        · cases h
        · rename_i hnew
          obtain ⟨_, hstore, h⟩ := bind_eq_ok h
          obtain ⟨rfl, rfl⟩ := Prod.mk.inj (Except.ok.inj h)
          exact .store hfield hnew hstore
    · cases h
  · intro h
    cases h with
    | skip hname hvalue => simp only [Json.textToken, readMember, hname, if_pos hvalue]
    | store hfield hnew hstore =>
      simp only [Json.textToken, readMember, hfield, if_neg hnew, hstore]
      rfl

/-- All members are taken, one after the other. -/
inductive TakesAll (format : RecordFormat α) :
    List String → α → List (JsonToken × JsonTree) → List String → α → Prop
  | nil {seen : List String} {record : α} : TakesAll format seen record [] seen record
  | cons {seen between after : List String} {record next last : α} {member : JsonToken × JsonTree}
      {members : List (JsonToken × JsonTree)}
      (hfirst : Takes format seen record member between next)
      (hothers : TakesAll format between next members after last) :
      TakesAll format seen record (member :: members) after last

theorem foldlM_eq_ok_iff : members.foldlM format.readMember (seen, record) = .ok (seen', next) ↔
    TakesAll format seen record members seen' next := by
  induction members generalizing seen record with
  | nil =>
    constructor
    · intro h
      obtain ⟨rfl, rfl⟩ := Prod.mk.inj (Except.ok.inj h)
      exact .nil
    · intro h
      cases h
      rfl
  | cons member members ih =>
    rw [List.foldlM_cons]
    constructor
    · intro h
      obtain ⟨⟨between, mid⟩, hfirst, hothers⟩ := bind_eq_ok h
      exact .cons (readMember_eq_ok_iff.mp hfirst) (ih.mp hothers)
    · intro h
      cases h with
      | cons hfirst hothers =>
        rw [readMember_eq_ok_iff.mpr hfirst]
        exact ih.mpr hothers

/-- A record is read from its members when they are all taken and no field is missing. -/
theorem readMembers_eq_ok_iff {closed : Bool} : format.readMembers members closed = .ok next ↔
    closed = true ∧ ∃ seen, TakesAll format [] format.blank members seen next ∧
      ∀ field ∈ format.fields, field.required = true → field.name ∈ seen := by
  unfold readMembers
  constructor
  · intro h
    obtain ⟨⟨seen, record⟩, hmembers, h⟩ := bind_eq_ok h
    obtain ⟨_, hclosed, h⟩ := bind_eq_ok h
    split at h
    · cases h
    · rename_i hnone
      obtain rfl := Except.ok.inj h
      refine ⟨eq_true_of_requireClosed hclosed, seen, foldlM_eq_ok_iff.mp hmembers,
        fun field hfield hrequired => ?_⟩
      have hgiven := List.find?_eq_none.mp hnone field hfield
      simpa [hrequired] using hgiven
  · rintro ⟨rfl, seen, hmembers, hgiven⟩
    have hnone : (format.fields.find? fun field =>
        field.required && !seen.contains field.name) = none := by
      refine List.find?_eq_none.mpr fun field hfield => ?_
      by_cases hrequired : field.required = true
      · simp [hgiven field hfield hrequired]
      · simp [hrequired]
    rw [foldlM_eq_ok_iff.mpr hmembers]
    simp only [bind, Except.bind, requireClosed, if_pos, hnone]
    rfl

/-! ## Members trade places -/

/-- What has been seen matters for the names that are still to come, and for no others. -/
theorem TakesAll.mono {more : List String} (h : TakesAll format seen record members seen' next)
    (hsub : seen ⊆ more) (hnew : ∀ member ∈ members, ∀ name ∈ more,
      member.1 = Json.textToken name → name ∈ seen) :
    ∃ more', TakesAll format more record members more' next ∧ seen' ⊆ more' := by
  induction h generalizing more with
  | nil => exact ⟨more, .nil, hsub⟩
  | @cons seen between after record next last member members hfirst _ ih =>
    obtain ⟨hhere, hlater⟩ := List.forall_mem_cons.mp hnew
    cases hfirst with
    | skip hname hvalue =>
      obtain ⟨more', hothers, hafter⟩ := ih hsub hlater
      exact ⟨more', .cons (.skip hname hvalue) hothers, hafter⟩
    | @store name value field _ _ _ hfield hunseen hstore =>
      have hsub' : name :: seen ⊆ name :: more := List.cons_subset_cons name hsub
      have hlater' : ∀ member ∈ members, ∀ other ∈ name :: more,
          member.1 = Json.textToken other → other ∈ name :: seen := by
        intro member hmember other hother heq
        obtain rfl | hother := List.mem_cons.mp hother
        · exact List.mem_cons_self
        · exact List.mem_cons_of_mem name (hlater member hmember other hother heq)
      obtain ⟨more', hothers, hafter⟩ := ih hsub' hlater'
      have hunseen' : name ∉ more := fun hmem => hunseen (hhere name hmem rfl)
      exact ⟨more', .cons (.store hfield hunseen' hstore) hothers, hafter⟩

/-- Two members are taken in either order, if their fields commute. -/
theorem Takes.swap (hcommutes : ∀ field ∈ format.fields, ∀ other ∈ format.fields,
      field.name ≠ other.name → field.Commutes other)
    {member other : JsonToken × JsonTree} {between : List String} {mid : α}
    (h : Takes format seen record member between mid)
    (h' : Takes format between mid other seen' next) :
    ∃ between' mid' after, Takes format seen record other between' mid' ∧
      Takes format between' mid' member after next ∧ seen' ⊆ after ∧ after ⊆ seen' := by
  cases h with
  | skip hname hvalue =>
    cases h' with
    | skip hname' hvalue' =>
      exact ⟨_, _, _, .skip hname' hvalue', .skip hname hvalue, List.Subset.refl _,
        List.Subset.refl _⟩
    | store hfield hnew hstore =>
      exact ⟨_, _, _, .store hfield hnew hstore, .skip hname hvalue, List.Subset.refl _,
        List.Subset.refl _⟩
  | @store name value field _ _ _ hfield hnew hstore =>
    cases h' with
    | skip hname' hvalue' =>
      exact ⟨_, _, _, .skip hname' hvalue', .store hfield hnew hstore, List.Subset.refl _,
        List.Subset.refl _⟩
    | @store name' value' field' _ _ _ hfield' hnew' hstore' =>
      have hother : name' ≠ name := List.ne_of_not_mem_cons hnew'
      have hunseen : name' ∉ seen := List.not_mem_of_not_mem_cons hnew'
      have hfieldName : field.name = name := by simpa using List.find?_some hfield
      have hfieldName' : field'.name = name' := by simpa using List.find?_some hfield'
      have hdistinct : field.name ≠ field'.name := by
        rw [hfieldName, hfieldName']
        exact hother.symm
      have hboth := hcommutes field (List.mem_of_find?_eq_some hfield) field'
        (List.mem_of_find?_eq_some hfield') hdistinct
      obtain ⟨mid', hfirst, hsecond⟩ := (hboth _ _ _ _).mp ⟨_, hstore, hstore'⟩
      have hnew'' : name ∉ name' :: seen := List.not_mem_cons_of_ne_of_not_mem hother.symm hnew
      exact ⟨_, _, _, .store hfield' hunseen hfirst, .store hfield hnew'' hsecond,
        (List.Perm.swap name name' seen).subset, (List.Perm.swap name' name seen).subset⟩

/-- **Members may trade places**: all of them are taken, to the same record. -/
theorem TakesAll.perm (hcommutes : ∀ field ∈ format.fields, ∀ other ∈ format.fields,
      field.name ≠ other.name → field.Commutes other)
    (hperm : members.Perm members') (h : TakesAll format seen record members seen' next) :
    ∃ after, TakesAll format seen record members' after next ∧ seen' ⊆ after := by
  induction hperm generalizing seen record seen' next with
  | nil => exact ⟨seen', h, List.Subset.refl _⟩
  | cons member _ ih =>
    cases h with
    | cons hfirst hothers =>
      obtain ⟨after, hothers', hsub⟩ := ih hothers
      exact ⟨after, .cons hfirst hothers', hsub⟩
  | swap member other members =>
    cases h with
    | cons hfirst hothers =>
      cases hothers with
      | cons hsecond hothers =>
        obtain ⟨_, _, _, hfirst', hsecond', hmore, hless⟩ := hfirst.swap hcommutes hsecond
        obtain ⟨after, hothers', hsub⟩ := hothers.mono hmore fun _ _ name hname _ => hless hname
        exact ⟨after, .cons hfirst' (.cons hsecond' hothers'), hsub⟩
  | trans _ _ ih ih' =>
    obtain ⟨between, hmid, hsub⟩ := ih h
    obtain ⟨after, hlast, hsub'⟩ := ih' hmid
    exact ⟨after, hlast, List.Subset.trans hsub hsub'⟩

/-! ## Lenient formats -/

theorem Takes.intact {member : JsonToken × JsonTree}
    (hfields : ∀ field ∈ format.fields, ∀ value record next,
      field.store value record = .ok next → value.intact = true)
    (h : Takes format seen record member seen' next) :
    (isName member.1 && member.2.intact) = true := by
  cases h with
  | skip _ hvalue => exact hvalue
  | store hfield _ hstore => exact hfields _ (List.mem_of_find?_eq_some hfield) _ _ _ hstore

theorem TakesAll.intact (hfields : ∀ field ∈ format.fields, ∀ value record next,
      field.store value record = .ok next → value.intact = true)
    (h : TakesAll format seen record members seen' next) : membersIntact members = true := by
  induction h with
  | nil => rfl
  | cons hfirst _ ih => exact Bool.and_eq_true_iff.mpr ⟨hfirst.intact hfields, ih⟩

end RecordFormat

/-! ## Fields -/

namespace RecordField

variable {name name' : String} {required required' : Bool} {shape : Shape} {blank : α}
  {read : JsonTree → Except JsonFault β} {put : β → α → α}
  {read' : JsonTree → Except JsonFault γ} {put' : γ → α → α}

/-- A field fits the shape that its reader tolerates. -/
theorem Fits.of_tolerates (h : Tolerates shape read)
    (habsent : ∀ inner, shape = .option inner →
      (read (.scalar .null)).map (put · blank) = .ok blank) :
    Fits blank (name, shape) ⟨name, required, fun t r => (read t).map (put · r)⟩ where
  name := rfl
  intact hstore := by
    obtain ⟨_, hread, -⟩ := map_eq_ok_iff.mp hstore
    exact h.intact hread
  kept hchange hstore := by
    obtain ⟨x, hread, rfl⟩ := map_eq_ok_iff.mp hstore
    exact map_eq_ok_iff.mpr ⟨x, h.kept hchange hread, rfl⟩
  absent hshape := habsent _ hshape

/-- Fields commute when they put their values into different places. -/
theorem commutes_of_put (h : ∀ x y record, put' y (put x record) = put x (put' y record)) :
    Commutes ⟨name, required, fun t r => (read t).map (put · r)⟩
      ⟨name', required', fun t r => (read' t).map (put' · r)⟩ := by
  intro value value' record last
  constructor
  · rintro ⟨_, hfirst, hsecond⟩
    obtain ⟨x, hx, rfl⟩ := map_eq_ok_iff.mp hfirst
    obtain ⟨y, hy, rfl⟩ := map_eq_ok_iff.mp hsecond
    exact ⟨_, map_eq_ok_iff.mpr ⟨y, hy, rfl⟩, map_eq_ok_iff.mpr ⟨x, hx, (h x y record).symm⟩⟩
  · rintro ⟨_, hfirst, hsecond⟩
    obtain ⟨y, hy, rfl⟩ := map_eq_ok_iff.mp hfirst
    obtain ⟨x, hx, rfl⟩ := map_eq_ok_iff.mp hsecond
    exact ⟨_, map_eq_ok_iff.mpr ⟨x, hx, rfl⟩, map_eq_ok_iff.mpr ⟨y, hy, h x y record⟩⟩

variable {entries : List (String × Shape)} {fields : List (RecordField α)}

theorem names_of_fits (h : List.Forall₂ (Fits blank) entries fields) :
    fields.map (·.name) = entries.map Prod.fst := by
  induction h with
  | nil => rfl
  | cons hfirst _ ih => rw [List.map_cons, List.map_cons, hfirst.name, ih]

/-- Each field has a shape. -/
theorem exists_entry (h : List.Forall₂ (Fits blank) entries fields) {field : RecordField α}
    (hfield : field ∈ fields) : ∃ entry, Fits blank entry field := by
  induction h with
  | nil => cases hfield
  | cons hfirst _ ih =>
    obtain rfl | hfield := List.mem_cons.mp hfield
    · exact ⟨_, hfirst⟩
    · exact ih hfield

/-- The field of a shape stands in the same place. -/
theorem exists_split {front back : List (String × Shape)} {entry : String × Shape}
    (h : List.Forall₂ (Fits blank) (front ++ entry :: back) fields) :
    ∃ before field behind, fields = before ++ field :: behind ∧ before.length = front.length ∧
      Fits blank entry field := by
  induction front generalizing fields with
  | nil =>
    cases h with
    | cons hfirst _ => exact ⟨[], _, _, rfl, rfl, hfirst⟩
  | cons first front ih =>
    cases h with
    | @cons _ other _ fields _ hothers =>
      obtain ⟨before, field, behind, rfl, hlength, hfits⟩ := ih hothers
      exact ⟨other :: before, field, behind, rfl, congrArg (· + 1) hlength, hfits⟩

end RecordField

namespace RecordFormat.Lenient

variable {format : RecordFormat α} {fields : List (String × Shape)} {result : α}
  (h : format.Lenient fields)
include h

theorem store_intact : ∀ field ∈ format.fields, ∀ value record next,
    field.store value record = .ok next → value.intact = true := by
  intro field hfield value record next hstore
  obtain ⟨entry, hfits⟩ := RecordField.exists_entry h.fits hfield
  exact hfits.intact hstore

theorem names_distinct : (format.fields.map (·.name)).Nodup := by
  rw [RecordField.names_of_fits h.fits]
  exact h.distinct

theorem commutes_of_ne : ∀ field ∈ format.fields, ∀ other ∈ format.fields,
    field.name ≠ other.name → field.Commutes other := by
  intro field hfield other hother hname
  exact h.commutes.forall hfield hother fun heq => hname (congrArg RecordField.name heq)

/-- The field that a shape is expected in. -/
theorem exists_field {name : String} {shape : Shape} (hmem : (name, shape) ∈ fields) :
    ∃ field, format.field? name = some field ∧ field.Fits format.blank (name, shape) := by
  obtain ⟨front, back, rfl⟩ := List.append_of_mem hmem
  obtain ⟨before, field, behind, hfields, -, hfits⟩ := RecordField.exists_split h.fits
  have hfield : field ∈ format.fields := by
    rw [hfields]
    exact List.mem_append_right before List.mem_cons_self
  refine ⟨field, ?_, hfits⟩
  rw [← show field.name = name from hfits.name]
  exact field?_eq h.names_distinct hfield

theorem field?_eq_none {name : String} (hname : name ∉ fields.map Prod.fst) :
    format.field? name = none := by
  refine List.find?_eq_none.mpr fun field hfield heq => hname ?_
  rw [← RecordField.names_of_fits h.fits, ← eq_of_beq heq]
  exact List.mem_map_of_mem hfield

/-- A record whose members are read is intact. -/
theorem intact_of_members {members : List (JsonToken × JsonTree)} {closed : Bool}
    (hread : format.readMembers members closed = .ok result) :
    (JsonTree.object members closed).intact = true := by
  obtain ⟨hclosed, _, hmembers, -⟩ := readMembers_eq_ok_iff.mp hread
  exact Bool.and_eq_true_iff.mpr ⟨hclosed, hmembers.intact h.store_intact⟩

/-- So is a record whose fields are read from an array. -/
theorem intact_of_items {items : List JsonTree} {closed : Bool}
    (hread : format.readItems items closed = .ok result) :
    (JsonTree.array items closed).intact = true := by
  obtain ⟨last, hitems, hread⟩ := bind_eq_ok hread
  obtain ⟨_, hend, -⟩ := bind_eq_ok hread
  obtain ⟨hclosed, hcount⟩ := Bool.and_eq_true_iff.mp (eq_true_of_requireClosed hend)
  refine Bool.and_eq_true_iff.mpr ⟨hclosed, allIntact_iff.mpr fun item hitem => ?_⟩
  -- No item is left over, so each stands in a field.
  rw [← List.map_snd_zip (of_decide_eq_true hcount)] at hitem
  obtain ⟨⟨field, item⟩, hpair, rfl⟩ := List.mem_map.mp hitem
  obtain ⟨_, _, hstore⟩ := exists_ok_of_foldlM hitems hpair
  exact h.store_intact field (List.of_mem_zip hpair).1 item _ _ hstore

/-! ## Changes -/

/-- **A record is read as before** when one change that does not count is made in its members. -/
theorem members_kept {members members' : List (JsonToken × JsonTree)} {closed : Bool}
    (hchange : Change (.record fields) (.object members closed) (.object members' closed))
    (hread : format.readMembers members closed = .ok result) :
    format.readMembers members' closed = .ok result := by
  cases hchange with
  | permute hperm =>
    obtain ⟨hclosed, seen, hmembers, hgiven⟩ := readMembers_eq_ok_iff.mp hread
    obtain ⟨after, hmembers', hsub⟩ := hmembers.perm h.commutes_of_ne hperm
    exact readMembers_eq_ok_iff.mpr ⟨hclosed, after, hmembers',
      fun field hfield hrequired => hsub (hgiven field hfield hrequired)⟩
  | add hname hvalue =>
    obtain ⟨hclosed, seen, hmembers, hgiven⟩ := readMembers_eq_ok_iff.mp hread
    exact readMembers_eq_ok_iff.mpr
      ⟨hclosed, seen, .cons (.skip (h.field?_eq_none hname) hvalue) hmembers, hgiven⟩
  | @absent _ name shape _ _ hfield habsent =>
    obtain ⟨hclosed, seen, hmembers, hgiven⟩ := readMembers_eq_ok_iff.mp hread
    obtain ⟨field, hfound, hfits⟩ := h.exists_field hfield
    have hblank : field.store (.scalar .null) format.blank = .ok format.blank := hfits.absent rfl
    have hnew : ∀ member ∈ members, ∀ other ∈ [name],
        member.1 = Json.textToken other → other ∈ [] := by
      intro member hmember other hother heq
      rw [List.mem_singleton.mp hother] at heq
      exact absurd heq (habsent member hmember)
    obtain ⟨after, hmembers', hsub⟩ := hmembers.mono (List.nil_subset [name]) hnew
    exact readMembers_eq_ok_iff.mpr ⟨hclosed, after,
      .cons (.store hfound List.not_mem_nil hblank) hmembers',
      fun field hfield hrequired => hsub (hgiven field hfield hrequired)⟩
  | @field _ name shape value value' front back _ hfield hchange =>
    obtain ⟨field, hfound, hfits⟩ := h.exists_field hfield
    have hmember : ∀ s s', format.readMember s (Json.textToken name, value) = .ok s' →
        format.readMember s (Json.textToken name, value') = .ok s' := by
      rintro ⟨seen, record⟩ ⟨seen', next⟩ hstep
      refine readMember_eq_ok_iff.mpr ?_
      cases readMember_eq_ok_iff.mp hstep with
      | skip hnone =>
        rw [hfound] at hnone
        cases hnone
      | store hother hnew hstore =>
        obtain rfl := Option.some.inj (hfound.symm.trans hother)
        exact .store hfound hnew (hfits.kept hchange hstore)
    obtain ⟨state, hmembers, hread⟩ := bind_eq_ok hread
    rw [readMembers, foldlM_replace hmember hmembers]
    exact hread

/-- The same for a record that is given as an array. -/
theorem items_kept {before behind : List (String × Shape)} {name : String} {shape : Shape}
    (hfields : fields = before ++ (name, shape) :: behind) {value value' : JsonTree}
    {front back : List JsonTree} {closed : Bool} (hplace : before.length = front.length)
    (hchange : Change shape value value')
    (hread : format.readItems (front ++ value :: back) closed = .ok result) :
    format.readItems (front ++ value' :: back) closed = .ok result := by
  subst hfields
  obtain ⟨first, field, last, hall, hlength, hfits⟩ := RecordField.exists_split h.fits
  have hzip (item : JsonTree) : format.fields.zip (front ++ item :: back) =
      first.zip front ++ (field, item) :: last.zip back := by
    rw [hall, List.zip_append (hlength.trans hplace), List.zip_cons_cons]
  have hcount : (front ++ value' :: back).length = (front ++ value :: back).length := by
    simp only [List.length_append, List.length_cons]
  obtain ⟨record, hitems, hread⟩ := bind_eq_ok hread
  rw [hzip] at hitems
  have hstep : ∀ s s', field.store value s = .ok s' → field.store value' s = .ok s' :=
    fun s s' hstore => hfits.kept hchange hstore
  rw [readItems, hzip, foldlM_replace hstep hitems, hcount]
  exact hread

/-- **Records of a lenient format tolerate changes.** -/
theorem tolerates : Tolerates (.record fields) format.read where
  intact {t a} hread := by
    unfold read at hread
    split at hread
    · exact h.intact_of_members hread
    · exact h.intact_of_items hread
    · cases hread
  kept {t t' a} hchange hread := by
    cases t with
    | object members closed =>
      obtain ⟨members', rfl⟩ : ∃ members', t' = .object members' closed := by
        cases hchange <;> exact ⟨_, rfl⟩
      exact h.members_kept hchange hread
    | array items closed =>
      generalize hshape : Shape.record fields = shape at hchange
      generalize hitems : JsonTree.array items closed = t at hchange
      cases hchange with
      | place hplace hchange =>
        obtain ⟨rfl, rfl⟩ := JsonTree.array.inj hitems
        exact h.items_kept (Shape.record.inj hshape) hplace hchange hread
      | item => cases hshape
      | present => cases hshape
      | _ => cases hitems
    | scalar s => cases hread
    | broken => cases hread

end RecordFormat.Lenient

/-! ## Payloads -/

namespace RecordFormat

variable {format : RecordFormat α} {shape : Shape} {payload : List UInt8} {result : α}

/-- A payload is read when it is a text of a tree that is read. -/
theorem readPayload_eq_ok_iff (h : Tolerates shape format.read) :
    format.readPayload payload = .ok result ↔
      ∃ t, t.Spells payload ∧ format.read t = .ok result := by
  constructor
  · intro hread
    cases hparsed : ofTokens (JsonToken.ofPayload payload) with
    | mk tree ended =>
      rw [readPayload, hparsed] at hread
      obtain ⟨last, htree, hread⟩ := bind_eq_ok hread
      obtain ⟨_, hended, hread⟩ := bind_eq_ok hread
      obtain rfl := Except.ok.inj hread
      obtain rfl : ended = true := eq_true_of_requireClosed hended
      exact ⟨tree, spells_iff.mpr ⟨h.intact htree, hparsed⟩, htree⟩
  · rintro ⟨t, hspells, hread⟩
    obtain ⟨-, htree⟩ := spells_iff.mp hspells
    rw [readPayload, htree]
    show format.read t >>= _ = _
    rw [hread]
    rfl

/-- **A payload is read as before** when its tree is changed in ways that do not count, and is
spelled in any way. -/
theorem readPayload_kept (h : Tolerates shape format.read) {t t' : JsonTree}
    {payload' : List UInt8} (hread : format.readPayload payload = .ok result)
    (hspells : t.Spells payload) (hchanges : Relation.ReflTransGen (Change shape) t t')
    (hspells' : t'.Spells payload') : format.readPayload payload' = .ok result := by
  obtain ⟨start, hstart, hread⟩ := (readPayload_eq_ok_iff h).mp hread
  obtain rfl : start = t := hstart.unique hspells
  exact (readPayload_eq_ok_iff h).mpr ⟨t', hspells', h.kept_of_changes hchanges hread⟩

end RecordFormat
end PluginHost
