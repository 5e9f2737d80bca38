import Mathlib.Order.Defs.Unbundled
import PluginHost.Proofs.Candidate.Best
import PluginHost.Proofs.Results

/-! # Which copy is better is a strict weak order

`Candidate.beats` is the strict part of the total preorder `Candidate.cmp`, so it has the laws of
a strict weak order, whatever pre-releases and builds the versions have.  Copies of which neither
is better are on one level: they have the same version, build included, and the same mark
(`Candidate.level_iff`).  So not being better either way is being equal in these two, and it is
transitive (`Candidate.beats_strictWeakOrder`). -/
namespace PluginHost
namespace Candidate

open Std

variable {b c d : Candidate}

theorem beats_eq_false_iff : c.beats d = false ↔ c.cmp d ≠ .gt := by
  rw [← Bool.not_eq_true, beats_iff]

theorem beats_irrefl (c : Candidate) : c.beats c = false := by
  rw [beats_eq_false_iff, @ReflCmp.compare_self _ cmp _ _]
  decide

theorem beats_asymm (h : c.beats d = true) : d.beats c = false := by
  rw [beats_eq_false_iff, OrientedCmp.lt_of_gt (beats_iff.mp h)]
  decide

theorem beats_trans (hbc : b.beats c = true) (hcd : c.beats d = true) : b.beats d = true :=
  beats_iff.mpr (TransCmp.gt_trans (beats_iff.mp hbc) (beats_iff.mp hcd))

/-- Of two copies neither is better just when they are on one level. -/
theorem level_iff : c.beats d = false ∧ d.beats c = false ↔
    c.version = d.version ∧ c.fromWildcard = d.fromWildcard := by
  constructor
  · rintro ⟨hcd, hdc⟩
    rw [beats_eq_false_iff] at hcd hdc
    refine eq_of_cmp_eq ?_
    cases ho : c.cmp d with
    | eq => rfl
    | lt => exact absurd (OrientedCmp.gt_of_lt ho) hdc
    | gt => exact absurd ho hcd
  · rintro ⟨hversion, hmark⟩
    have hcd : c.cmp d = d.cmp d := cmp_congr hversion hmark rfl rfl
    have hdc : d.cmp c = d.cmp d := cmp_congr rfl rfl hversion hmark
    rw [beats_eq_false_iff, beats_eq_false_iff, hcd, hdc, ← beats_eq_false_iff]
    exact ⟨beats_irrefl d, beats_irrefl d⟩

/-- **Being better is a strict weak order.**  No copy is better than itself, of two copies one
at most is better than the other, and better than better is better.  Copies of which neither is
better are those with the same version and the same mark, so this is transitive as well. -/
theorem beats_strictWeakOrder :
    IsStrictWeakOrder Candidate (fun c d => c.beats d = true) ∧
    (∀ c d : Candidate, c.beats d = true → d.beats c = false) ∧
    ∀ c d : Candidate, c.beats d = false ∧ d.beats c = false ↔
      c.version = d.version ∧ c.fromWildcard = d.fromWildcard := by
  refine ⟨{ irrefl := ?irrefl, trans := ?trans, incomp_trans := ?incomparable },
    fun _ _ => beats_asymm, fun _ _ => level_iff⟩
  case irrefl => exact fun c => Bool.eq_false_iff.mp (beats_irrefl c)
  case trans => exact fun _ _ _ => beats_trans
  case incomparable =>
    intro b c d hbc hcd
    simp only [Bool.not_eq_true] at hbc hcd ⊢
    obtain ⟨hversion, hmark⟩ := level_iff.mp hbc
    obtain ⟨hversion', hmark'⟩ := level_iff.mp hcd
    exact level_iff.mpr ⟨hversion.trans hversion', hmark.trans hmark'⟩

/-- A copy with a build is better than the release, the release is better than its pre-release,
and so the first is better than the last, but not the other way round. -/
theorem beats_strictWeakOrder_of_builds :
    let copy (version : String) : Except HostError Candidate :=
      Candidate.of ⟨"tools.wasm"⟩ { name := "tools", version } true
    ∃ b c d, copy "1.0.0+00" = .ok b ∧ copy "1.0" = .ok c ∧ copy "1.0.0-rc.1" = .ok d ∧
      b.beats c = true ∧ c.beats d = true ∧ b.beats d = true ∧ d.beats b = false := by
  intro copy
  have hbetter : ((copy "1.0.0+00").toOption.any fun b => (copy "1.0").toOption.any fun c =>
      (copy "1.0.0-rc.1").toOption.any fun d => b.beats c && c.beats d) = true := by
    decide +kernel
  obtain ⟨b, hb, hbetter⟩ := (Option.any_eq_true _ _).mp hbetter
  obtain ⟨c, hc, hbetter⟩ := (Option.any_eq_true _ _).mp hbetter
  obtain ⟨d, hd, hbetter⟩ := (Option.any_eq_true _ _).mp hbetter
  obtain ⟨hbc, hcd⟩ := Bool.and_eq_true_iff.mp hbetter
  obtain ⟨horder, hasymm, -⟩ := beats_strictWeakOrder
  have hbd : b.beats d = true := horder.trans b c d hbc hcd
  exact ⟨b, c, d, eq_ok_of_toOption hb, eq_ok_of_toOption hc, eq_ok_of_toOption hd, hbc, hcd, hbd,
    hasymm b d hbd⟩

end Candidate
end PluginHost
