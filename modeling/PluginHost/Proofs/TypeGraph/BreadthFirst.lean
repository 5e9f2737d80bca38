import Mathlib.Logic.Relation
import Mathlib.Order.Lattice.Nat
import PluginHost.Proofs.Lists
import PluginHost.Proofs.Lists.Occurrence
import PluginHost.TypeGraph

/-! # Ancestries are breadth first

An ancestry lists exactly the types that the relations lead to, each once, the nearer ones
first, and of two types the one in front whose first predecessor stands in front
(`TypeGraph.ancestry_breadth_first`).

A queue may hold a name several times, since a type is marked when its turn comes and not
when it is named.  What a queue leads to is therefore described by all names that ever wait in
it: those that wait now, and then the names that the relations of the listed types have, type
by type.  The list holds their first occurrences (`TypeGraph.follow_eq_eraseDups`).  The order
of the list is read off from this equation, and the distances from the order. -/
namespace PluginHost
namespace TypeGraph

/-! ## Reaching types -/

/-- The relations of a type name another one. -/
def Names (g : TypeGraph) (type next : TypeName) : Prop := next ∈ g.targets type

/-- A number of relations in a row lead from one type to another. -/
inductive Leads (g : TypeGraph) (start : TypeName) : Nat → TypeName → Prop where
  | here : Leads g start 0 start
  | step {n : Nat} {type next : TypeName} (h : Leads g start n type) (hnext : g.Names type next) :
    Leads g start (n + 1) next

/-- How many relations in a row it takes at least to get from one type to another. -/
noncomputable def distance (g : TypeGraph) (start type : TypeName) : Nat :=
  sInf {n | g.Leads start n type}

/-- The first type of a list whose relations name a type. -/
def namer? (g : TypeGraph) (order : List TypeName) (type : TypeName) : Option TypeName :=
  order.find? fun p => (g.targets p).contains type

variable {g : TypeGraph} {start type next : TypeName}

theorem reaches_iff : Relation.ReflTransGen g.Names start type ↔ ∃ n, g.Leads start n type := by
  constructor
  · intro h
    induction h with
    | refl => exact ⟨0, .here⟩
    | tail _ hnext ih =>
      obtain ⟨n, hleads⟩ := ih
      exact ⟨n + 1, .step hleads hnext⟩
  · rintro ⟨n, h⟩
    induction h with
    | here => exact .refl
    | step _ hnext ih => exact ih.tail hnext

theorem leads_distance (h : Relation.ReflTransGen g.Names start type) :
    g.Leads start (g.distance start type) type :=
  Nat.sInf_mem (s := {n | g.Leads start n type}) (reaches_iff.mp h)

theorem Leads.distance_le {n : Nat} (h : g.Leads start n type) : g.distance start type ≤ n :=
  Nat.sInf_le h

/-- What a type names is at most one relation further away. -/
theorem distance_le_of_names (h : Relation.ReflTransGen g.Names start type)
    (hnext : g.Names type next) : g.distance start next ≤ g.distance start type + 1 :=
  (leads_distance h |>.step hnext).distance_le

/-- Only the start is at no distance. -/
theorem eq_of_distance_eq_zero (h : Relation.ReflTransGen g.Names start type)
    (hzero : g.distance start type = 0) : type = start := by
  have hleads := leads_distance h
  rw [hzero] at hleads
  cases hleads
  rfl

/-- A type at a distance is named by one that is nearer. -/
theorem exists_nearer {n : Nat} (h : Relation.ReflTransGen g.Names start next)
    (hdistance : g.distance start next = n + 1) :
    ∃ type, Relation.ReflTransGen g.Names start type ∧ g.distance start type ≤ n ∧
      g.Names type next := by
  have hleads := leads_distance h
  rw [hdistance] at hleads
  cases hleads with
  | step htype hnext => exact ⟨_, reaches_iff.mpr ⟨n, htype⟩, htype.distance_le, hnext⟩

/-! ## What a queue leads to -/

/-- **What a queue leads to** are the names that ever wait in it, as they first occur. -/
theorem follow_eq_eraseDups (g : TypeGraph) (seen queue : List TypeName) :
    g.follow seen queue =
      ((queue ++ (g.follow seen queue).flatMap g.targets).filter
        fun type => !seen.contains type).eraseDups := by
  fun_induction follow g seen queue with
  | case1 seen => rfl
  | case2 seen type queue hseen ih =>
    rw [List.cons_append, List.filter_cons_of_neg (by simpa using hseen)]
    exact ih
  | case3 seen type queue hseen ih =>
    rw [List.cons_append, List.filter_cons_of_pos (by simpa using hseen), List.eraseDups_cons,
      List.filter_filter]
    refine congrArg (type :: ·) ?_
    rw [List.flatMap_cons, ← List.append_assoc]
    refine ih.trans (congrArg List.eraseDups (List.filter_congr fun other _ => ?_))
    rw [List.contains_cons, Bool.not_or]

/-- What a queue leads to is reached from a name in it. -/
theorem exists_reaches_of_mem_follow {seen queue : List TypeName}
    (h : type ∈ g.follow seen queue) : ∃ q ∈ queue, Relation.ReflTransGen g.Names q type := by
  fun_induction follow g seen queue with
  | case1 seen => cases h
  | case2 seen first queue hseen ih =>
    obtain ⟨q, hq, hreach⟩ := ih h
    exact ⟨q, List.mem_cons_of_mem first hq, hreach⟩
  | case3 seen first queue hseen ih =>
    rcases List.mem_cons.mp h with rfl | h
    · exact ⟨type, List.mem_cons_self, .refl⟩
    · obtain ⟨q, hq, hreach⟩ := ih h
      rcases List.mem_append.mp hq with hq | hq
      · exact ⟨q, List.mem_cons_of_mem first hq, hreach⟩
      · exact ⟨first, List.mem_cons_self, .head hq hreach⟩

/-! ## Ancestries -/

/-- An ancestry holds the start and all names that its types have, as they first occur. -/
theorem ancestry_eq_eraseDups (g : TypeGraph) (start : TypeName) :
    g.ancestry start = (start :: (g.ancestry start).flatMap g.targets).eraseDups := by
  have h := g.follow_eq_eraseDups [] [start]
  rwa [List.filter_eq_self.mpr fun _ _ => by simp] at h

theorem mem_ancestry_start (g : TypeGraph) (start : TypeName) : start ∈ g.ancestry start := by
  rw [ancestry_eq_eraseDups]
  exact List.mem_eraseDups.mpr List.mem_cons_self

theorem head?_ancestry (g : TypeGraph) (start : TypeName) :
    (g.ancestry start).head? = some start := by
  rw [ancestry_eq_eraseDups, List.eraseDups_cons]
  rfl

theorem nodup_ancestry (g : TypeGraph) (start : TypeName) : (g.ancestry start).Nodup := by
  rw [ancestry_eq_eraseDups]
  exact Lists.nodup_eraseDups _

/-- What a type of an ancestry names is in the ancestry. -/
theorem mem_ancestry_of_names (h : type ∈ g.ancestry start) (hnext : g.Names type next) :
    next ∈ g.ancestry start := by
  rw [ancestry_eq_eraseDups, List.mem_eraseDups]
  exact List.mem_cons_of_mem start (List.mem_flatMap.mpr ⟨type, h, hnext⟩)

/-- An ancestry holds exactly the types that the relations lead to. -/
theorem mem_ancestry_iff :
    type ∈ g.ancestry start ↔ Relation.ReflTransGen g.Names start type := by
  constructor
  · intro h
    obtain ⟨q, hq, hreach⟩ := exists_reaches_of_mem_follow h
    rwa [List.mem_singleton.mp hq] at hreach
  · intro h
    induction h with
    | refl => exact g.mem_ancestry_start start
    | tail _ hnext ih => exact mem_ancestry_of_names ih hnext

/-- A namer is in the list and names the type. -/
theorem names_of_namer? {order : List TypeName} {p : TypeName} (h : g.namer? order type = some p) :
    p ∈ order ∧ g.Names p type := by
  refine ⟨List.mem_of_find?_eq_some h, ?_⟩
  have hcontains := List.find?_some h
  exact List.contains_iff_mem.mp hcontains

/-- Every type of an ancestry but the start has a namer in it. -/
theorem exists_namer (h : type ∈ g.ancestry start) (hne : type ≠ start) :
    ∃ p, g.namer? (g.ancestry start) type = some p := by
  rw [ancestry_eq_eraseDups, List.mem_eraseDups] at h
  obtain ⟨p, hp, hnamed⟩ := List.mem_flatMap.mp ((List.mem_cons.mp h).resolve_left hne)
  refine Option.isSome_iff_exists.mp (List.find?_isSome.mpr ⟨p, hp, ?_⟩)
  exact List.contains_iff_mem.mpr hnamed

/-! ## The order of an ancestry -/

/-- The types of an ancestry stand as they are first named. -/
theorem idxOf_ancestry_lt_iff {a b p q : TypeName} (ha : a ≠ start) (hb : b ≠ start)
    (hp : g.namer? (g.ancestry start) a = some p) (hq : g.namer? (g.ancestry start) b = some q) :
    (g.ancestry start).idxOf a < (g.ancestry start).idxOf b ↔
      (g.ancestry start).idxOf p < (g.ancestry start).idxOf q ∨
        p = q ∧ (g.targets p).idxOf a < (g.targets p).idxOf b := by
  rw [← Lists.idxOf_flatMap_lt_iff hp hq]
  conv_lhs => rw [ancestry_eq_eraseDups, Lists.idxOf_eraseDups_lt_iff]
  rw [List.idxOf_cons_ne _ ha.symm, List.idxOf_cons_ne _ hb.symm, Nat.succ_lt_succ_iff]

/-- The start stands in front. -/
theorem idxOf_start_lt (hne : type ≠ start) :
    (g.ancestry start).idxOf start < (g.ancestry start).idxOf type := by
  rw [ancestry_eq_eraseDups, Lists.idxOf_eraseDups_lt_iff, List.idxOf_cons_self,
    List.idxOf_cons_ne _ hne.symm]
  exact Nat.succ_pos _

/-- What is nearer stands in front. -/
theorem idxOf_lt_of_distance_le {d : Nat} {a b : TypeName} (ha : a ∈ g.ancestry start)
    (hb : b ∈ g.ancestry start) (hnear : g.distance start a ≤ d) (hfar : d < g.distance start b) :
    (g.ancestry start).idxOf a < (g.ancestry start).idxOf b := by
  have hbs : b ≠ start := by
    rintro rfl
    have hzero : g.distance b b ≤ 0 := Leads.here.distance_le
    omega
  -- The induction is on the distance that separates the two: their namers are a step nearer.
  induction d generalizing a b with
  | zero =>
    obtain rfl := eq_of_distance_eq_zero (mem_ancestry_iff.mp ha) (Nat.le_zero.mp hnear)
    exact idxOf_start_lt hbs
  | succ d ih =>
    by_cases has : a = start
    · subst has
      exact idxOf_start_lt hbs
    obtain ⟨p, hp⟩ := exists_namer ha has
    obtain ⟨q, hq⟩ := exists_namer hb hbs
    obtain ⟨hqmem, hqnames⟩ := names_of_namer? hq
    have hqfar : d < g.distance start q := by
      have hle := distance_le_of_names (mem_ancestry_iff.mp hqmem) hqnames
      omega
    have hqs : q ≠ start := by
      rintro rfl
      have hzero : g.distance q q ≤ 0 := Leads.here.distance_le
      omega
    by_cases hle : g.distance start a ≤ d
    · exact ih ha hb hle (Nat.lt_of_succ_lt hfar) hbs
    · obtain ⟨c, hc, hcd, hnames⟩ := exists_nearer (n := d) (mem_ancestry_iff.mp ha) (by omega)
      have hfirst := Lists.idxOf_le_of_find?_eq_some hp (List.contains_iff_mem.mpr hnames)
      have hlt := ih (mem_ancestry_iff.mpr hc) hqmem hcd hqfar hqs
      exact (idxOf_ancestry_lt_iff has hbs hp hq).mpr (.inl (Nat.lt_of_le_of_lt hfirst hlt))

/-- What stands in front is not further away. -/
theorem distance_le_of_idxOf_le {a b : TypeName} (ha : a ∈ g.ancestry start)
    (hb : b ∈ g.ancestry start)
    (h : (g.ancestry start).idxOf a ≤ (g.ancestry start).idxOf b) :
    g.distance start a ≤ g.distance start b := by
  by_contra hlt
  have hback := idxOf_lt_of_distance_le hb ha (Nat.le_refl _) (Nat.lt_of_not_le hlt)
  omega

/-- Distances do not decrease along an ancestry. -/
theorem pairwise_distance_ancestry (g : TypeGraph) (start : TypeName) :
    (g.ancestry start).Pairwise fun a b => g.distance start a ≤ g.distance start b := by
  rw [List.pairwise_iff_getElem]
  intro i j hi hj hij
  refine distance_le_of_idxOf_le (List.getElem_mem hi) (List.getElem_mem hj) ?_
  rw [(g.nodup_ancestry start).idxOf_getElem, (g.nodup_ancestry start).idxOf_getElem]
  omega

/-- **An ancestry is breadth first.**  It begins with the start, lists each type once, and lists
exactly the types that the relations lead to.  The distance from the start does not decrease
along the list.  Every other type than the start is named by a type of the list; of two such
types, whether they are at one distance or not, that one stands in front whose first namer
stands in front, and among the types that have their first namer in common the one that it
names first: what a type implements in the order of its declaration, and then its base. -/
theorem ancestry_breadth_first (g : TypeGraph) (start : TypeName) :
    (g.ancestry start).head? = some start ∧
    (g.ancestry start).Nodup ∧
    (∀ type, type ∈ g.ancestry start ↔ Relation.ReflTransGen g.Names start type) ∧
    (g.ancestry start).Pairwise (fun a b => g.distance start a ≤ g.distance start b) ∧
    (∀ type ∈ g.ancestry start, type ≠ start →
      ∃ p, g.namer? (g.ancestry start) type = some p) ∧
    ∀ a b p q, a ≠ start → b ≠ start → g.namer? (g.ancestry start) a = some p →
      g.namer? (g.ancestry start) b = some q →
      ((g.ancestry start).idxOf a < (g.ancestry start).idxOf b ↔
        (g.ancestry start).idxOf p < (g.ancestry start).idxOf q ∨
          p = q ∧ (g.targets p).idxOf a < (g.targets p).idxOf b) :=
  ⟨g.head?_ancestry start, g.nodup_ancestry start, fun _ => mem_ancestry_iff,
    g.pairwise_distance_ancestry start, fun _ => exists_namer,
    fun _ _ _ _ => idxOf_ancestry_lt_iff⟩

/-- Types that go round in a circle, with a type that two others name. -/
def writerGraph : TypeGraph where
  declared := [
    (⟨"ReportWriter"⟩, { implements := [⟨"IWriter"⟩, ⟨"IDisposable"⟩, ⟨"IWriter"⟩]
                         base := some ⟨"BaseWriter"⟩ }),
    (⟨"BaseWriter"⟩, { implements := [⟨"IOutput"⟩], base := some ⟨"Object"⟩ }),
    (⟨"IDisposable"⟩, { implements := [⟨"IOutput"⟩, ⟨"Object"⟩] }),
    (⟨"Object"⟩, { base := some ⟨"ReportWriter"⟩ })]

/-- An interface and the base of a base are both named by the same interface first, and stand
as it names them. -/
theorem ancestry_breadth_first_of_circle :
    (writerGraph.ancestry ⟨"ReportWriter"⟩).map (·.text) =
      ["ReportWriter", "IWriter", "IDisposable", "BaseWriter", "IOutput", "Object"] ∧
    writerGraph.namer? (writerGraph.ancestry ⟨"ReportWriter"⟩) ⟨"IOutput"⟩ =
      some ⟨"IDisposable"⟩ ∧
    writerGraph.namer? (writerGraph.ancestry ⟨"ReportWriter"⟩) ⟨"Object"⟩ =
      some ⟨"IDisposable"⟩ ∧
    (writerGraph.ancestry ⟨"ReportWriter"⟩).idxOf ⟨"IOutput"⟩ <
      (writerGraph.ancestry ⟨"ReportWriter"⟩).idxOf ⟨"Object"⟩ := by
  have houtput : writerGraph.namer? (writerGraph.ancestry ⟨"ReportWriter"⟩) ⟨"IOutput"⟩ =
      some ⟨"IDisposable"⟩ := by
    decide +kernel
  have hobject : writerGraph.namer? (writerGraph.ancestry ⟨"ReportWriter"⟩) ⟨"Object"⟩ =
      some ⟨"IDisposable"⟩ := by
    decide +kernel
  obtain ⟨-, -, -, -, -, horder⟩ := ancestry_breadth_first writerGraph ⟨"ReportWriter"⟩
  refine ⟨by decide +kernel, houtput, hobject, ?_⟩
  exact (horder _ _ _ _ (by decide) (by decide) houtput hobject).mpr
    (.inr ⟨rfl, by decide +kernel⟩)

end TypeGraph
end PluginHost
