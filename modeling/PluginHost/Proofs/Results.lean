/-! # Computations that may fail

When sequences and lists of computations succeed, and which of them failed when
they do not. -/
namespace PluginHost

variable {ε α β : Type}

/-- An answer that is there when failures do not count is the answer. -/
theorem eq_ok_of_toOption {x : Except ε α} {a : α} (h : x.toOption = some a) : x = .ok a := by
  cases x with
  | error e => cases h
  | ok b => rw [Option.some.inj h]

/-- A computation without a result failed. -/
theorem exists_error_of_toOption {x : Except ε α} (h : x.toOption.isNone = true) :
    ∃ e, x = .error e := by
  cases x with
  | error e => exact ⟨e, rfl⟩
  | ok a => cases h

/-- A computation of two parts succeeds when both do. -/
theorem bind_eq_ok {x : Except ε α} {f : α → Except ε β} {b : β} (h : x >>= f = .ok b) :
    ∃ a, x = .ok a ∧ f a = .ok b := by
  cases x with
  | error e => cases h
  | ok a => exact ⟨a, rfl, h⟩

/-- A computation of two parts fails when the first does, or the second. -/
theorem bind_eq_error {x : Except ε α} {f : α → Except ε β} {e : ε} (h : x >>= f = .error e) :
    x = .error e ∨ ∃ a, x = .ok a ∧ f a = .error e := by
  cases x with
  | error other => exact .inl (congrArg Except.error (Except.error.inj h))
  | ok a => exact .inr ⟨a, rfl, h⟩

/-- A computation of two parts fails when the first does or the second, if the second fails
or not whatever the first answers. -/
theorem bind_fails_iff {x : Except ε α} {f : α → Except ε β} {P : Prop}
    (h : ∀ a, (∃ e, f a = .error e) ↔ P) :
    (∃ e, x >>= f = .error e) ↔ (∃ e, x = .error e) ∨ P := by
  cases x with
  | error e => simp [bind, Except.bind]
  | ok a => simpa [bind, Except.bind] using h a

/-- A result is made of another without failing. -/
theorem bind_pure_fails_iff {x : Except ε α} {f : α → β} :
    (∃ e, (x >>= fun a => pure (f a)) = .error e) ↔ ∃ e, x = .error e := by
  cases x with
  | error e => simp [bind, Except.bind]
  | ok a => simp [bind, Except.bind, pure, Except.pure]

theorem map_eq_error_iff {x : Except ε α} {f : α → β} {e : ε} :
    x.map f = .error e ↔ x = .error e := by
  cases x with
  | error other => simp [Except.map]
  | ok a => simp [Except.map]

theorem map_eq_ok_iff {x : Except ε α} {f : α → β} {b : β} :
    x.map f = .ok b ↔ ∃ a, x = .ok a ∧ f a = b := by
  cases x with
  | error e => simp [Except.map]
  | ok a => simp [Except.map]

/-- A list cannot be read when one of its members cannot. -/
theorem mapM_fails_iff {f : α → Except ε β} {as : List α} :
    (∃ e, as.mapM f = .error e) ↔ ∃ a ∈ as, ∃ e, f a = .error e := by
  induction as with
  | nil => simp [pure, Except.pure]
  | cons a as ih =>
    simp only [List.mapM_cons, List.mem_cons, exists_eq_or_imp, ← ih]
    cases ha : f a with
    | error e => simp [bind, Except.bind]
    | ok b =>
      cases has : as.mapM f with
      | error e => simp [bind, Except.bind]
      | ok bs => simp [bind, Except.bind, pure, Except.pure]

/-- Each member of a list that can be read can be read. -/
theorem exists_ok_of_mapM {f : α → Except ε β} {as : List α} {bs : List β}
    (h : as.mapM f = .ok bs) {a : α} (ha : a ∈ as) : ∃ b, f a = .ok b := by
  cases hf : f a with
  | ok b => exact ⟨b, rfl⟩
  | error e =>
    obtain ⟨e', he'⟩ := mapM_fails_iff.mpr ⟨a, ha, e, hf⟩
    rw [h] at he'
    cases he'

/-- A list can be read if each of its members can. -/
theorem mapM_ok_of_forall {f : α → Except ε β} {as : List α}
    (h : ∀ a ∈ as, ∃ b, f a = .ok b) : ∃ bs, as.mapM f = .ok bs := by
  induction as with
  | nil => exact ⟨[], rfl⟩
  | cons a as ih =>
    obtain ⟨b, hb⟩ := h a List.mem_cons_self
    obtain ⟨bs, hbs⟩ := ih fun a ha => h a (List.mem_cons_of_mem _ ha)
    exact ⟨b :: bs, by rw [List.mapM_cons, hb, hbs]; rfl⟩

/-- A fold that fails does so at one of the members, and it has passed those before it. -/
theorem exists_split_of_foldlM_error {f : β → α → Except ε β} {as : List α} {b : β} {e : ε}
    (h : as.foldlM f b = .error e) : ∃ passed a rest b', as = passed ++ a :: rest ∧
      passed.foldlM f b = .ok b' ∧ f b' a = .error e := by
  induction as generalizing b with
  | nil => cases h
  | cons a as ih =>
    rw [List.foldlM_cons] at h
    cases ha : f b a with
    | error e' =>
      rw [ha] at h
      obtain rfl := Except.error.inj h
      exact ⟨[], a, as, b, rfl, rfl, ha⟩
    | ok b' =>
      rw [ha] at h
      obtain ⟨passed, a', rest, c, rfl, hpassed, hfail⟩ := ih h
      refine ⟨a :: passed, a', rest, c, rfl, ?_, hfail⟩
      rw [List.foldlM_cons, ha]
      exact hpassed

theorem exists_of_foldlM_error {f : β → α → Except ε β} {as : List α} {b : β} {e : ε}
    (h : as.foldlM f b = .error e) : ∃ a ∈ as, ∃ b', f b' a = .error e := by
  obtain ⟨passed, a, rest, b', rfl, -, hfail⟩ := exists_split_of_foldlM_error h
  exact ⟨a, List.mem_append_right passed List.mem_cons_self, b', hfail⟩

/-- What holds before a fold, and is kept by each step that succeeds, holds after the fold.
It may speak of the members that the fold has passed. -/
theorem foldlM_induction {f : β → α → Except ε β} {P : List α → β → Prop} {as : List α}
    {b c : β} (start : P [] b)
    (step : ∀ done a, a ∈ as → ∀ b b', P done b → f b a = .ok b' → P (done ++ [a]) b')
    (h : as.foldlM f b = .ok c) : P as c := by
  have hgeneral : ∀ done rest b, done ++ rest = as → P done b → rest.foldlM f b = .ok c →
      P as c := by
    intro done rest
    induction rest generalizing done with
    | nil =>
      intro b hall hp h
      obtain rfl := Except.ok.inj h
      rwa [← hall, List.append_nil]
    | cons a rest ih =>
      intro b hall hp h
      rw [List.foldlM_cons] at h
      obtain ⟨b', hb', h⟩ := bind_eq_ok h
      have hmem : a ∈ as := hall ▸ List.mem_append_right done List.mem_cons_self
      exact ih (done ++ [a]) b' (by rw [List.append_assoc]; exact hall)
        (step done a hmem b b' hp hb') h
  exact hgeneral [] as b rfl start h

/-- A fold that succeeds takes each member in some step. -/
theorem exists_ok_of_foldlM {f : β → α → Except ε β} {as : List α} {b c : β}
    (h : as.foldlM f b = .ok c) {a : α} (ha : a ∈ as) : ∃ s s', f s a = .ok s' := by
  obtain ⟨front, back, rfl⟩ := List.append_of_mem ha
  rw [List.foldlM_append] at h
  obtain ⟨mid, -, h⟩ := bind_eq_ok h
  rw [List.foldlM_cons] at h
  obtain ⟨next, hnext, -⟩ := bind_eq_ok h
  exact ⟨mid, next, hnext⟩

/-- A fold over a list is not changed by a member that each step takes like another one. -/
theorem foldlM_replace {f : β → α → Except ε β} {front back : List α} {a a' : α} {b c : β}
    (ha : ∀ s s', f s a = .ok s' → f s a' = .ok s')
    (h : (front ++ a :: back).foldlM f b = .ok c) : (front ++ a' :: back).foldlM f b = .ok c := by
  rw [List.foldlM_append] at h ⊢
  obtain ⟨mid, hmid, h⟩ := bind_eq_ok h
  rw [List.foldlM_cons] at h
  obtain ⟨next, hnext, hback⟩ := bind_eq_ok h
  rw [hmid]
  show (a' :: back).foldlM f mid = .ok c
  rw [List.foldlM_cons, ha mid next hnext]
  exact hback

/-- A list is read as before with a member that is read like another one. -/
theorem mapM_replace {f : α → Except ε β} {front back : List α} {a a' : α} {bs : List β}
    (ha : ∀ b, f a = .ok b → f a' = .ok b)
    (h : (front ++ a :: back).mapM f = .ok bs) : (front ++ a' :: back).mapM f = .ok bs := by
  induction front generalizing bs with
  | nil =>
    rw [List.nil_append, List.mapM_cons] at h ⊢
    obtain ⟨b, hb, h⟩ := bind_eq_ok h
    rw [ha b hb]
    exact h
  | cons first front ih =>
    rw [List.cons_append, List.mapM_cons] at h ⊢
    obtain ⟨b, hb, h⟩ := bind_eq_ok h
    obtain ⟨others, hothers, h⟩ := bind_eq_ok h
    rw [hb]
    show ((front ++ a' :: back).mapM f >>= fun others => pure (b :: others)) = .ok bs
    rw [ih hothers]
    exact h

end PluginHost
