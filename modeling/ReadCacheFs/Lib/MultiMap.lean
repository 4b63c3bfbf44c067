/-
Ordered maps from keys to lists (`std::map<K, std::deque<V>>`): what they
hold, as one list of entries up to order.

An operation on one key is read off `entries_split` and `entries_insert`:
the entries of the key, and the rest, which stays.
-/
import Mathlib.Data.List.Perm.Basic
import Std.Data.TreeMap

namespace Lib

variable {K α : Type} [Ord K]

/-- Each element with its key. -/
def entries (m : Std.TreeMap K (List α)) : List (K × α) := m.toList.flatMap fun ka => ka.2.map (ka.1, ·)

variable [Std.TransOrd K] [Std.LawfulEqOrd K]

section Lists

variable {β : Type} {m : Std.TreeMap K β} {k : K} {v : β}

theorem toList_nodup (m : Std.TreeMap K β) : m.toList.Nodup := by
  refine (Std.TreeMap.distinct_keys_toList (t := m)).imp fun {a b} h he => ?_
  rw [he] at h
  simp at h

theorem toList_split (h : m[k]? = some v) : m.toList.Perm ((k, v) :: (m.erase k).toList) := by
  have hnot : (k, v) ∉ (m.erase k).toList := by simp [Std.TreeMap.mem_toList_iff_getElem?_eq_some]
  refine (List.perm_ext_iff_of_nodup (toList_nodup m)
    (List.nodup_cons.mpr ⟨hnot, toList_nodup _⟩)).mpr fun ⟨a, b⟩ => ?_
  simp only [List.mem_cons, Prod.mk.injEq, Std.TreeMap.mem_toList_iff_getElem?_eq_some,
    Std.TreeMap.getElem?_erase,
    Std.compare_eq_iff_eq]
  by_cases ha : k = a
  · subst ha
    simp [h, eq_comm]
  · have ha' : a ≠ k := fun he => ha he.symm
    simp [ha, ha']

theorem toList_insert (m : Std.TreeMap K β) (k : K) (v : β) :
    (m.insert k v).toList.Perm ((k, v) :: (m.erase k).toList) := by
  have hnot : (k, v) ∉ (m.erase k).toList := by simp [Std.TreeMap.mem_toList_iff_getElem?_eq_some]
  refine (List.perm_ext_iff_of_nodup (toList_nodup _)
    (List.nodup_cons.mpr ⟨hnot, toList_nodup _⟩)).mpr fun ⟨a, b⟩ => ?_
  simp only [List.mem_cons, Prod.mk.injEq, Std.TreeMap.mem_toList_iff_getElem?_eq_some,
    Std.TreeMap.getElem?_erase,
    Std.TreeMap.getElem?_insert, Std.compare_eq_iff_eq]
  by_cases ha : k = a
  · subst ha
    simp [eq_comm]
  · have ha' : a ≠ k := fun he => ha he.symm
    simp [ha, ha']

end Lists

variable (m : Std.TreeMap K (List α)) (k : K)

/-- The entries of one key and the rest. -/
theorem entries_split : (entries m).Perm (((m[k]?).getD []).map (k, ·) ++ entries (m.erase k)) := by
  cases h : m[k]? with
  | some as => exact (toList_split h).flatMap_right _
  | none =>
    have hnot : k ∉ m := by
      rw [Std.TreeMap.mem_iff_isSome_getElem?, h]
      simp
    have hsame : m.toList.Perm (m.erase k).toList := by
      refine (List.perm_ext_iff_of_nodup (toList_nodup m) (toList_nodup _)).mpr fun ⟨a, b⟩ => ?_
      simp only [Std.TreeMap.mem_toList_iff_getElem?_eq_some, Std.TreeMap.getElem?_erase, Std.compare_eq_iff_eq]
      by_cases ha : k = a
      · subst ha
        simp [h]
      · simp [ha]
    exact hsame.flatMap_right _

theorem entries_insert (as : List α) : (entries (m.insert k as)).Perm (as.map (k, ·) ++ entries (m.erase k)) :=
  (toList_insert m k as).flatMap_right _

theorem mem_entries {m : Std.TreeMap K (List α)} {k : K} {a : α} :
    (k, a) ∈ entries m ↔ ∃ as, m[k]? = some as ∧ a ∈ as := by
  simp only [entries, List.mem_flatMap, List.mem_map, Prod.mk.injEq]
  constructor
  · rintro ⟨⟨k', as⟩, hm, a', ha, rfl, rfl⟩
    exact ⟨as, Std.TreeMap.mem_toList_iff_getElem?_eq_some.mp hm, ha⟩
  · rintro ⟨as, hm, ha⟩
    exact ⟨(k, as), Std.TreeMap.mem_toList_iff_getElem?_eq_some.mpr hm, a, ha, rfl, rfl⟩

end Lib
