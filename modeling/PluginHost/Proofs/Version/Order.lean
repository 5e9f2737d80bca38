import PluginHost.Version

/-! # Versions are totally ordered

`Version.cmp` is the lexicographic order of five parts, so it is a total order as
soon as the identifiers are totally ordered.  An identifier is a number or a word,
and every number is below every word: `PreIdentifier.cmp` and
`BuildIdentifier.cmp` are therefore handled by the kinds of what they compare.

Versions that are equal in this order are the same version, build metadata
included: the leading zeros of a build number are compared, not dropped. -/
namespace PluginHost.Version

open Std

/-! ## Words and numbers -/

/-- A word is its characters. -/
theorem Word.ext {u w : Word} (h : u.chars = w.chars) : u = w := by
  cases u; cases w; cases h; rfl

/-- Texts that compare as equal are equal. -/
theorem eq_of_compareLex {cs ds : List Char} (h : List.compareLex compare cs ds = .eq) : cs = ds :=
  @LawfulEqCmp.eq_of_compare _ (List.compareLex compare) _ _ _ h

instance : TransCmp PreIdentifier.cmp where
  eq_swap {a b} := by
    cases a with
    | number m => cases b with
      | number n => exact OrientedOrd.eq_swap
      | word w => rfl
    | word u => cases b with
      | number n => rfl
      | word w => exact @OrientedCmp.eq_swap _ (List.compareLex compare) _ _ _
  isLE_trans {a b c} hab hbc := by
    cases a with
    | number m => cases c with
      | word w => rfl
      | number n => cases b with
        | word w => cases hbc
        | number k => exact TransOrd.isLE_trans hab hbc
    | word u => cases b with
      | number m => cases hab
      | word v => cases c with
        | number n => cases hbc
        | word w => exact @TransCmp.isLE_trans _ (List.compareLex compare) _ _ _ _ hab hbc

instance : LawfulEqCmp PreIdentifier.cmp where
  eq_of_compare {a b} h := by
    cases a with
    | number m => cases b with
      | number n => exact congrArg _ (LawfulEqOrd.eq_of_compare h)
      | word w => cases h
    | word u => cases b with
      | number n => cases h
      | word w =>
        exact congrArg _ (Word.ext (eq_of_compareLex h))

/-- The order of build numbers: the value first, then the leading zeros. -/
def cmpNumber : Nat × Nat → Nat × Nat → Ordering :=
  compareLex (compareOn Prod.snd) (compareOn Prod.fst)

instance : TransCmp cmpNumber := inferInstanceAs (TransCmp (compareLex _ _))

instance : TransCmp BuildIdentifier.cmp where
  eq_swap {a b} := by
    cases a with
    | number y m => cases b with
      | number z n => exact @OrientedCmp.eq_swap _ cmpNumber _ (y, m) (z, n)
      | word w => rfl
    | word u => cases b with
      | number z n => rfl
      | word w => exact @OrientedCmp.eq_swap _ (List.compareLex compare) _ _ _
  isLE_trans {a b c} hab hbc := by
    cases a with
    | number x k => cases c with
      | word w => rfl
      | number z n => cases b with
        | word w => cases hbc
        | number y m =>
          exact @TransCmp.isLE_trans _ cmpNumber _ (x, k) (y, m) (z, n)
            hab hbc
    | word u => cases b with
      | number y m => cases hab
      | word v => cases c with
        | number z n => cases hbc
        | word w => exact @TransCmp.isLE_trans _ (List.compareLex compare) _ _ _ _ hab hbc

instance : LawfulEqCmp BuildIdentifier.cmp where
  compare_self {_} := @ReflCmp.compare_self _ BuildIdentifier.cmp _ _
  eq_of_compare {a b} h := by
    cases a with
    | number y m => cases b with
      | number z n =>
        obtain ⟨hv, hz⟩ := Ordering.then_eq_eq.mp h
        rw [LawfulEqOrd.eq_of_compare hv, LawfulEqOrd.eq_of_compare hz]
      | word w => cases h
    | word u => cases b with
      | number z n => cases h
      | word w =>
        exact congrArg _ (Word.ext (eq_of_compareLex h))

/-! ## Pre-releases and versions -/

/-- The order of pre-releases as a lexicographic order. -/
theorem preCmp_eq :
    preCmp = compareLex (compareOn List.isEmpty) (List.compareLex PreIdentifier.cmp) := rfl

instance : TransCmp preCmp := preCmp_eq ▸ inferInstance

instance : LawfulEqCmp preCmp where
  compare_self {_} := @ReflCmp.compare_self _ preCmp _ _
  eq_of_compare h := LawfulEqCmp.eq_of_compare (Ordering.then_eq_eq.mp h).2

/-- The order of versions by one of their parts. -/
def cmpBy {α : Type} (part : Version → α) (order : α → α → Ordering) (a b : Version) : Ordering :=
  order (part a) (part b)

instance {α : Type} (part : Version → α) (order : α → α → Ordering) [TransCmp order] :
    TransCmp (cmpBy part order) where
  eq_swap {_ _} := @OrientedCmp.eq_swap _ order _ _ _
  isLE_trans {_ _ _} := @TransCmp.isLE_trans _ order _ _ _ _

/-- The order of versions as a lexicographic order of their parts. -/
theorem cmp_eq_compareLex : cmp =
    compareLex (cmpBy major compare) (compareLex (cmpBy minor compare)
      (compareLex (cmpBy patch compare) (compareLex (cmpBy pre preCmp)
        (cmpBy build (List.compareLex BuildIdentifier.cmp))))) := rfl

instance : TransCmp cmp := cmp_eq_compareLex ▸ inferInstance

/-- **Versions that compare as equal are equal**, build metadata included. -/
instance : LawfulEqCmp cmp where
  compare_self {_} := @ReflCmp.compare_self _ cmp _ _
  eq_of_compare {a b} h := by
    obtain ⟨hmajor, h⟩ := Ordering.then_eq_eq.mp h
    obtain ⟨hminor, h⟩ := Ordering.then_eq_eq.mp h
    obtain ⟨hpatch, h⟩ := Ordering.then_eq_eq.mp h
    obtain ⟨hpre, hbuild⟩ := Ordering.then_eq_eq.mp h
    cases a; cases b
    cases LawfulEqOrd.eq_of_compare hmajor
    cases LawfulEqOrd.eq_of_compare hminor
    cases LawfulEqOrd.eq_of_compare hpatch
    cases @LawfulEqCmp.eq_of_compare _ preCmp _ _ _ hpre
    cases @LawfulEqCmp.eq_of_compare _ (List.compareLex BuildIdentifier.cmp) _ _ _ hbuild
    rfl

end PluginHost.Version
