import AresaDb.Lib.OrdMap

/-! # Totals of ordered maps

The sum of a weight over the entries of an ordered map, and how it changes with one entry. -/

namespace OrdMap

variable {κ α : Type} [LinearOrder κ] (weight : α → ℕ)

/-- The weights of all entries together. -/
def total (entries : List (κ × α)) : ℕ := (entries.map fun e => weight e.2).sum

/-- The weight of what stands under a key, if anything does. -/
def weightOf (v : Option α) : ℕ := v.elim 0 weight

variable (m : OrdMap κ α) (k : κ)

theorem nodup_toList : m.toList.Nodup :=
  (toList_sorted m).imp fun h he => absurd (congrArg Prod.fst he) (ne_of_lt h)

@[simp] theorem total_empty : total weight (∅ : OrdMap κ α).toList = 0 := by
  have hnil : (∅ : OrdMap κ α).toList = [] := by
    refine List.eq_nil_iff_forall_not_mem.mpr fun e he => ?_
    rw [← Prod.mk.eta (p := e), mem_toList, get_empty] at he
    cases he
  rw [hnil]
  rfl

/-- Without a key there is the rest. -/
theorem total_erase :
    total weight (m.erase k).toList + weightOf weight m[k]? = total weight m.toList := by
  cases h : m[k]? with
  | none =>
      have hsame : m.erase k = m := by
        refine ext fun a => ?_
        rw [get_erase]
        split_ifs with ha
        · rw [← ha, h]
        · rfl
      rw [hsame]
      rfl
  | some v =>
      have hperm : m.toList.Perm ((k, v) :: (m.erase k).toList) := by
        have hnot : (k, v) ∉ (m.erase k).toList := by
          rw [mem_toList, get_erase_self]
          exact nofun
        refine (List.perm_ext_iff_of_nodup (nodup_toList m)
          (List.nodup_cons.mpr ⟨hnot, nodup_toList _⟩)).mpr fun e => ?_
        obtain ⟨a, w⟩ := e
        rw [List.mem_cons, mem_toList, mem_toList, get_erase]
        split_ifs with ha
        · subst ha
          simp [h, eq_comm]
        · simp [Ne.symm ha]
      rw [total, total, (hperm.map _).sum_eq, List.map_cons, List.sum_cons, add_comm]
      rfl

/-- An entry put under a key counts in place of the one before. -/
theorem total_insert (v : α) :
    total weight (m.insert k v).toList + weightOf weight m[k]? =
      total weight m.toList + weight v := by
  have hback : (m.insert k v).erase k = m.erase k := by
    refine ext fun a => ?_
    rw [get_erase, get_erase]
    split_ifs with ha
    · rfl
    · exact get_insert_of_ne m v ha
  have hnew := total_erase weight (m.insert k v) k
  have hold := total_erase weight m k
  rw [hback, get_insert_self] at hnew
  have hv : weightOf weight (some v) = weight v := rfl
  omega

end OrdMap
