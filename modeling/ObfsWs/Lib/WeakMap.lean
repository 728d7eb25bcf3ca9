import Mathlib.Data.List.AList

/-!
# Maps of weak references

A map from keys to objects that does not keep its objects alive. An object is registered when it
is created; an entry is removed when a visit finds its object dead. In between an object can die at
any moment, so the map may hold dead objects, but no live one is missing.

## Deaths are not visits

An object dies outside of the map, without a visit, so the map is never known to hold live objects
only. What can be known at every moment is the converse: a live object is found under its key.
`Tracks` says that, and that an entry is under the key of its object; uniqueness follows, because
two live objects of one key would both have to be found there.

An insertion may replace an entry. It keeps `Tracks` if the entry it replaces is dead or is not
there, and it is the caller who has to know.

## Main definitions

* `WeakMap`, `WeakMap.visit` — the map, and one visit of a `retain` that keeps what is alive
* `WeakMap.Tracks` — each live object is registered under its key

## Main results

* `WeakMap.Tracks.unique` — at most one object of each key is alive
* `WeakMap.Tracks.mono`, `Tracks.visit`, `Tracks.insert` — deaths, visits and new objects keep it
-/

namespace ObfsWs

/-- A map of weak references to objects. -/
abbrev WeakMap (κ ι : Type) := AList (fun _ : κ => ι)

namespace WeakMap

variable {κ ι : Type} [DecidableEq κ]

/-- Visit the entry of `k`: remove it when its object is dead. -/
def visit (map : WeakMap κ ι) (alive : ι → Bool) (k : κ) : WeakMap κ ι :=
  match map.lookup k with
  | some m => if alive m then map else map.erase k
  | none => map

theorem lookup_visit_ne {map : WeakMap κ ι} {alive : ι → Bool} {k k' : κ} (h : k' ≠ k) :
    (map.visit alive k).lookup k' = map.lookup k' := by
  rw [visit]
  split
  · split
    · rfl
    · exact AList.lookup_erase_ne h
  · rfl

/-- After a visit, the entry is there exactly with an object that is alive. -/
theorem lookup_visit_eq_some {map : WeakMap κ ι} {alive : ι → Bool} {k : κ} {m : ι} :
    (map.visit alive k).lookup k = some m ↔ map.lookup k = some m ∧ alive m = true := by
  rw [visit]
  split
  · rename_i m' hm'
    split
    · rename_i halive
      constructor
      · intro h
        obtain rfl := Option.some.inj (hm'.symm.trans h)
        exact ⟨h, halive⟩
      · exact And.left
    · rename_i hdead
      rw [AList.lookup_erase, hm']
      constructor
      · intro h
        cases h
      · rintro ⟨h, halive⟩
        obtain rfl := Option.some.inj h
        exact absurd halive hdead
  · rename_i hnone
    rw [hnone]
    simp

/-- Each live object is registered under its key, and nothing under another. -/
structure Tracks (map : WeakMap κ ι) (alive : ι → Bool) (key : ι → Option κ) : Prop where
  registered : ∀ m k, alive m = true → key m = some k → map.lookup k = some m
  keyed : ∀ k m, map.lookup k = some m → key m = some k

namespace Tracks

variable {map : WeakMap κ ι} {alive alive' : ι → Bool} {key key' : ι → Option κ}

/-- **At most one object of each key is alive.** -/
theorem unique (h : Tracks map alive key) {m m' : ι} {k : κ} (hm : alive m = true)
    (hm' : alive m' = true) (hk : key m = some k) (hk' : key m' = some k) : m = m' := by
  have := (h.registered m k hm hk).symm.trans (h.registered m' k hm' hk')
  exact Option.some.inj this

theorem empty (halive : ∀ m, alive m = false) : Tracks (∅ : WeakMap κ ι) alive key where
  registered m _ hm _ := by
    rw [halive m] at hm
    cases hm
  keyed k m h := by
    rw [AList.lookup_empty] at h
    cases h

/-- Objects may die. -/
theorem mono (h : Tracks map alive key) (halive : ∀ m, alive' m = true → alive m = true) :
    Tracks map alive' key where
  registered m k hm hk := h.registered m k (halive m hm) hk
  keyed := h.keyed

/-- A visit removes no live object. -/
theorem visit (h : Tracks map alive key) (k : κ) : Tracks (map.visit alive k) alive key where
  registered m k' hm hk := by
    have hlookup := h.registered m k' hm hk
    by_cases hkk : k' = k
    · subst hkk
      exact lookup_visit_eq_some.mpr ⟨hlookup, hm⟩
    · rwa [lookup_visit_ne hkk]
  keyed k' m hlookup := by
    by_cases hkk : k' = k
    · subst hkk
      exact h.keyed k' m (lookup_visit_eq_some.mp hlookup).1
    · rw [lookup_visit_ne hkk] at hlookup
      exact h.keyed k' m hlookup

/-- A new object may be registered under a key that has no entry. -/
theorem insert (h : Tracks map alive key) {k : κ} {fresh : ι}
    (hnone : map.lookup k = none) (hfresh : key fresh = none) (hkey : key' fresh = some k)
    (hkeys : ∀ m, m ≠ fresh → key' m = key m)
    (halive : ∀ m, m ≠ fresh → alive' m = true → alive m = true) :
    Tracks (map.insert k fresh) alive' key' where
  registered m k' hm hk := by
    by_cases hmf : m = fresh
    · subst hmf
      obtain rfl := Option.some.inj (hkey.symm.trans hk)
      exact AList.lookup_insert map
    · rw [hkeys m hmf] at hk
      have hlookup := h.registered m k' (halive m hmf hm) hk
      have hkk : k' ≠ k := by
        rintro rfl
        rw [hnone] at hlookup
        cases hlookup
      rwa [AList.lookup_insert_ne hkk]
  keyed k' m hlookup := by
    by_cases hkk : k' = k
    · subst hkk
      rw [AList.lookup_insert] at hlookup
      obtain rfl := Option.some.inj hlookup
      exact hkey
    · rw [AList.lookup_insert_ne hkk] at hlookup
      have hk := h.keyed k' m hlookup
      have hmf : m ≠ fresh := by
        rintro rfl
        rw [hfresh] at hk
        cases hk
      rwa [hkeys m hmf]

end Tracks

end WeakMap

end ObfsWs
