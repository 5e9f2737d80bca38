import Mathlib.Data.List.Nodup
import PluginHost.Json.Record
import PluginHost.Metadata
import PluginHost.Proofs.Json.Trees

/-! # Values that are read back

`ReadsBack read write` says that a reader gets back every value from the structure of what
was written.  It passes from the parts of a value to the whole: to values that may be absent
(`ReadsBack.option`), to lists (`ReadsBack.list`), and to records whose fields were written in
their order (`RecordFormat.read_of_fills`).  An absent value is written as `null`, so nothing
else may be. -/
namespace PluginHost
open JsonTree

variable {α β : Type}

/-- The reader gets back every value that was written. -/
def ReadsBack (read : JsonTree → Except JsonFault α) (write : α → Json) : Prop :=
  ∀ a, read (write a).tree = .ok a

theorem readsBack_text : ReadsBack readText .string := fun _ => rfl

theorem readsBack_flag : ReadsBack readFlag .boolean := fun _ => rfl

theorem Json.ofText?_eq : Json.ofText? = Json.ofOption .string := by
  funext text
  cases text <;> rfl

variable {read : JsonTree → Except JsonFault α} {write : α → Json}

/-- A value that may be absent is read back if none that is present is written as `null`. -/
theorem ReadsBack.option (h : ReadsBack read write) (hnull : ∀ a, write a ≠ .null) :
    ReadsBack (readOption read) (Json.ofOption write) := by
  intro value
  cases value with
  | none => rfl
  | some a =>
    have hother : (write a).tree ≠ .scalar .null := by
      intro htree
      have hwritten := hnull a
      cases hvalue : write a with
      | null => exact hwritten hvalue
      | boolean b => rw [hvalue] at htree; cases htree
      | string s => rw [hvalue] at htree; cases htree
      | array items => rw [hvalue] at htree; cases htree
      | object members => rw [hvalue] at htree; cases htree
    show readOption read (write a).tree = .ok (some a)
    rw [readOption, h a]
    · rfl
    · exact hother

/-- A list is read back item by item. -/
theorem ReadsBack.list (h : ReadsBack read write) :
    ReadsBack (readList read) (Json.ofList write) := by
  intro values
  have hitems : (Json.itemTrees (values.map write)).mapM read = .ok values := by
    induction values with
    | nil => rfl
    | cons a values ih =>
      rw [List.map_cons, Json.itemTrees, List.mapM_cons, h a, ih]
      rfl
  show readList read (.array (Json.itemTrees (values.map write)) true) = .ok values
  rw [readList, hitems]
  rfl

/-! ## Records -/

/-- Members that a row of fields takes in, one after the other, from one record to another. -/
inductive Fills : List (RecordField α) → List (String × Json) → α → α → Prop
  | nil {record : α} : Fills [] [] record record
  | cons {field : RecordField α} {fields : List (RecordField α)} {value : Json}
      {members : List (String × Json)} {before next after : α}
      (store : field.store value.tree before = .ok next)
      (others : Fills fields members next after) :
      Fills (field :: fields) ((field.name, value) :: members) before after

variable {fields : List (RecordField β)} {members : List (String × Json)} {before after : β}

/-- A field takes in what was written for it. -/
theorem Fills.written {name : String} {required : Bool} {put : α → β → β} {a : α}
    (h : ReadsBack read write) (others : Fills fields members (put a before) after) :
    Fills (⟨name, required, fun t r => (read t).map (put · r)⟩ :: fields)
      ((name, write a) :: members) before after := by
  refine .cons ?_ others
  show (read (write a).tree).map (put · before) = .ok (put a before)
  rw [h a]
  rfl

namespace RecordFormat

variable {format : RecordFormat β}

/-- A field is found by its name if no two fields have one. -/
theorem field?_eq (hnames : (format.fields.map (·.name)).Nodup) {field : RecordField β}
    (h : field ∈ format.fields) : format.field? field.name = some field := by
  cases hfound : format.field? field.name with
  | none => exact absurd (List.find?_eq_none.mp hfound field h) (by simp)
  | some other =>
    have hname : other.name = field.name := by simpa using List.find?_some hfound
    rw [List.inj_on_of_nodup_map hnames (List.mem_of_find?_eq_some hfound) h hname]

/-- Members that the fields take in are read one by one, and all their names are seen. -/
theorem foldlM_readMember (hnames : (format.fields.map (·.name)).Nodup)
    (h : Fills fields members before after) (hall : fields ⊆ format.fields)
    (hdistinct : (fields.map (·.name)).Nodup) {seen : List String}
    (hnew : ∀ field ∈ fields, field.name ∉ seen) :
    (Json.memberTrees members).foldlM format.readMember (seen, before) =
      .ok ((fields.map (·.name)).reverse ++ seen, after) := by
  induction h generalizing seen with
  | nil => rfl
  | @cons field fields value members before next after store _ ih =>
    obtain ⟨hother, hdistinct⟩ := List.nodup_cons.mp hdistinct
    have hstep : format.readMember (seen, before) (Json.textToken field.name, value.tree) =
        .ok (field.name :: seen, next) := by
      simp only [Json.textToken, readMember, field?_eq hnames (hall List.mem_cons_self),
        if_neg (hnew field List.mem_cons_self), store]
      rfl
    have hrest : ∀ other ∈ fields, other.name ∉ field.name :: seen := by
      intro other hmem hseen
      rcases List.mem_cons.mp hseen with heq | hseen
      · exact hother (List.mem_map.mpr ⟨other, hmem, heq⟩)
      · exact hnew other (List.mem_cons_of_mem field hmem) hseen
    rw [Json.memberTrees, List.foldlM_cons, hstep]
    refine (ih (fun _ hmem => hall (List.mem_cons_of_mem field hmem)) hdistinct hrest).trans ?_
    rw [List.map_cons, List.reverse_cons, List.append_assoc, List.singleton_append]

/-- **A record is read back from members that its fields take in, in their order.** -/
theorem read_of_fills (hnames : (format.fields.map (·.name)).Nodup)
    (h : Fills format.fields members format.blank after) :
    format.read (Json.object members).tree = .ok after := by
  let names := (format.fields.map (·.name)).reverse ++ []
  have hmembers : (Json.memberTrees members).foldlM format.readMember ([], format.blank) =
      .ok (names, after) :=
    foldlM_readMember hnames h (List.Subset.refl _) hnames fun _ _ => List.not_mem_nil
  have hgiven : (format.fields.find? fun field => field.required &&
      !names.contains field.name) = none := by
    rw [List.find?_eq_none]
    intro field hmem
    have hseen : field.name ∈ names :=
      List.mem_append_left [] (List.mem_reverse.mpr (List.mem_map.mpr ⟨field, hmem, rfl⟩))
    rw [List.contains_iff_mem.mpr hseen, Bool.not_true, Bool.and_false]
    exact Bool.false_ne_true
  show format.readMembers (Json.memberTrees members) true = .ok after
  rw [readMembers, hmembers]
  simp only [bind, Except.bind, requireClosed, if_true, hgiven]
  rfl

end RecordFormat
end PluginHost
