import Mathlib.Data.List.Basic
import Mathlib.Logic.Relation
import Ydfs.Build.ChildPkg

/-!
# The entry of `archlastbuild` is never built

A package is built when a call of `get_child_pkg` finds it ready, under the name in `$d`.  The loop
sets `d` to the package whose dependencies the nested call gets, but nothing sets it for the first
call, and the package of the entry itself is in `archpkg` before the first loop starts, so that no
loop ever visits it.
-/

namespace Ydfs.Build

open Transition

variable {repo : Repository} {s r : Shell} {pkg : String}

/-- The PKGBUILD of `q` lists `q'` among its `depends`, after `get_alias`. -/
def DependsOn (repo : Repository) (q q' : String) : Prop :=
  ∃ k l, repo.fetch q k = some ⟨some l⟩ ∧ ∃ w ∈ l, getAlias w = q'

/-- No package depends on itself through others. -/
def Acyclic (repo : Repository) : Prop := ∀ q, ¬ Relation.TransGen (DependsOn repo) q q

/-- Every download of the package and of what it depends on succeeds. -/
def Fetchable (repo : Repository) (pkg : String) : Prop :=
  ∀ q, Relation.ReflTransGen (DependsOn repo) pkg q → ∀ k, (repo.fetch q k).isSome

/-- The package of the entry, and what it depends on outside `donotbuild`. -/
def Wanted (repo : Repository) (pkg q : String) : Prop :=
  q = pkg ∨ Relation.TransGen (DependsOn repo) pkg q ∧ q ∉ donotbuild

/-- Each wanted package has been built once, and after its own dependencies outside `donotbuild`. -/
structure Resolves (repo : Repository) (pkg : String) (r : Shell) : Prop where
  once : ∀ q, Wanted repo pkg q → r.built.count (some q) = 1
  ordered : ∀ q q', Wanted repo pkg q → DependsOn repo q q' → q' ∉ donotbuild →
    List.Sublist [some q', some q] r.built.reverse

/-- The entry `archlastbuild:pkg`, on an empty directory `archpkg`, resolves the dependencies. -/
def EntryResolves (repo : Repository) (forceBuild packageExists : Bool) (pkg : String) : Prop :=
  ∃ n r, archlastbuild repo forceBuild packageExists pkg n {} = some r ∧ Resolves repo pkg r

namespace Shell

/-- The PKGBUILD of `pkg` is there, and `pkg` has not been built. -/
def Unbuilt (pkg : String) (s : Shell) : Prop := (s.archpkg pkg).isSome ∧ some pkg ∉ s.built

/-- A call does not build the package when it is not in `$d`. -/
theorem Unbuilt.enter (h : s.Unbuilt pkg) (hd : s.d ≠ some pkg) : (s.enter repo).Unbuilt pkg := by
  refine ⟨grows_enter s pkg h.1, ?_⟩
  rcases built_enter repo s with hb | hb
  · rw [hb]
    exact h.2
  · rw [hb, List.mem_cons, not_or]
    exact ⟨hd.symm, h.2⟩

theorem Unbuilt.leave (h : s.Unbuilt pkg) : s.leave.Unbuilt pkg := by
  unfold Shell.leave
  split_ifs
  · exact h
  · exact h

theorem Unbuilt.load (h : s.Unbuilt pkg) (q : String) : (s.load repo q).Unbuilt pkg :=
  ⟨grows_load s q pkg h.1, by rw [built_load]; exact h.2⟩

end Shell

open Shell

/-- A package whose PKGBUILD is there is not visited, and hence not built. -/
theorem unbuilt_contract (repo : Repository) (pkg : String) :
    (getChildPkg repo).Contract (fun s => s.Unbuilt pkg ∧ s.d ≠ some pkg) (Unbuilt pkg)
      fun _ _ t => t.Unbuilt pkg where
  start s h := h.1.enter h.2
  skip e l t w t' h hv := by
    rcases settled_of_skip hv with ⟨-, rfl⟩ | ⟨-, -, rfl⟩
    · exact h
    · exact h
  call e l t w s' h hv := by
    obtain ⟨-, hw, rfl⟩ := missing_of_visit hv
    refine ⟨h.load _, ?_⟩
    rw [d_load]
    rintro ⟨rfl⟩
    have there := h.1
    simp [archpkg_of_not_settled hw] at there
  resume e l t w s' r _ _ hr := hr
  finish e t h := h.leave

/-- No entry is built when its PKGBUILD arrives. -/
theorem not_mem_built {forceBuild packageExists : Bool} {n : ℕ} (h : (repo.fetch pkg 0).isSome)
    (hr : archlastbuild repo forceBuild packageExists pkg n {} = some r) :
    some pkg ∉ r.built := by
  unfold archlastbuild at hr
  split_ifs at hr
  · cases hr
    simp
  · have start : Unbuilt pkg ((Shell.echoArchpkg repo {} pkg).source pkg) ∧
        ((Shell.echoArchpkg repo {} pkg).source pkg).d ≠ some pkg := by
      refine ⟨⟨?_, ?_⟩, ?_⟩
      · rw [archpkg_source]
        simpa [echoArchpkg] using h
      · unfold source
        split <;> simp [built_echoArchpkg]
      · unfold source
        split <;> simp [d_echoArchpkg]
    exact ((unbuilt_contract repo pkg).returns start ⟨n, hr⟩).2

/-- No entry resolves its dependencies when its PKGBUILD arrives: the package itself is not built. -/
theorem not_entry_resolves (repo : Repository) (forceBuild packageExists : Bool) (pkg : String)
    (h : (repo.fetch pkg 0).isSome) : ¬ EntryResolves repo forceBuild packageExists pkg := by
  rintro ⟨n, r, hr, resolves⟩
  have once := resolves.once pkg (.inl rfl)
  rw [List.count_eq_zero_of_not_mem (not_mem_built h hr)] at once
  cases once

/-- A package without dependencies. -/
def leaf : Repository where
  fetch pkg _ := if pkg = "m4" then some ⟨some []⟩ else none
  exits _ _ := true
  packages := {"m4"}
  fetch_mem pkg k f h := by
    split_ifs at h with hp
    simpa using hp

/-- Not even a package without dependencies is built. -/
theorem not_entry_resolves_leaf : ¬ EntryResolves leaf true false "m4" :=
  not_entry_resolves leaf true false "m4" rfl

theorem not_dependsOn_leaf (q q' : String) : ¬ DependsOn leaf q q' := by
  rintro ⟨k, l, hl, w, hw, -⟩
  simp only [leaf, Option.ite_none_right_eq_some, Option.some.injEq, Fragment.mk.injEq] at hl
  obtain ⟨-, rfl⟩ := hl
  cases hw

/-- Dependencies are not resolved for every acyclic graph of packages that can be downloaded. -/
theorem not_resolves :
    ¬ ∀ (repo : Repository) (pkg : String), Acyclic repo → Fetchable repo pkg →
      EntryResolves repo true false pkg := by
  intro h
  have acyclic : Acyclic leaf := fun q hq => by
    obtain ⟨q', hq', -⟩ := Relation.TransGen.head'_iff.1 hq
    exact not_dependsOn_leaf q q' hq'
  have fetchable : Fetchable leaf "m4" := by
    intro q hq k
    rcases Relation.ReflTransGen.cases_head hq with rfl | ⟨q', hq', -⟩
    · rfl
    · exact absurd hq' (not_dependsOn_leaf _ _)
  obtain ⟨n, r, hr, resolves⟩ := h leaf "m4" acyclic fetchable
  have once := resolves.once "m4" (.inl rfl)
  rw [List.count_eq_zero_of_not_mem (not_mem_built rfl hr)] at once
  cases once

end Ydfs.Build
