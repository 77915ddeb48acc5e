import Mathlib.Data.List.Nodup
import SoapBinding.Value

/-!
# Fields of distinct names

A field is found by its name where no field in front bears the same one. Setting a field keeps names distinct: it takes the
place of the one there is, and comes last where there is none.

    nodup_names_set : fields.names.Nodup → (fields.set name v).names.Nodup
-/

namespace SoapBinding.Fields

variable {fields : Fields} {name : String} {v : Value}

@[simp] theorem names_nil : names [] = [] := rfl

@[simp] theorem names_cons (f : String × Value) (fields : Fields) : names (f :: fields) = f.1 :: names fields := rfl

/-! ### Looking up -/

theorem mem_of_get? (h : fields.get? name = some v) : (name, v) ∈ fields := by
  induction fields with
  | nil => cases h
  | cons f rest ih =>
    obtain ⟨n, w⟩ := f
    rw [get?] at h
    by_cases heq : n = name
    · rw [if_pos heq] at h
      cases h
      exact heq ▸ List.mem_cons_self
    · rw [if_neg heq] at h
      exact List.mem_cons_of_mem _ (ih h)

theorem get?_of_mem (hnodup : fields.names.Nodup) (h : (name, v) ∈ fields) : fields.get? name = some v := by
  induction fields with
  | nil => cases h
  | cons f rest ih =>
    obtain ⟨n, w⟩ := f
    rw [names_cons, List.nodup_cons] at hnodup
    rcases List.mem_cons.1 h with heq | hmem
    · cases heq
      rw [get?, if_pos rfl]
    · have hname : name ∈ names rest := List.mem_map.2 ⟨_, hmem, rfl⟩
      have hne : n ≠ name := fun heq => hnodup.1 (heq ▸ hname)
      rw [get?, if_neg hne, ih hnodup.2 hmem]

/-- Looking up sees every field, where no name stands twice. -/
theorem get?_eq_some_iff (hnodup : fields.names.Nodup) : fields.get? name = some v ↔ (name, v) ∈ fields :=
  ⟨mem_of_get?, get?_of_mem hnodup⟩

/-! ### Setting -/

/-- A name that is set is there once, where it stood before or at the end. -/
theorem names_set (name : String) (v : Value) (fields : Fields) :
    (fields.set name v).names = if name ∈ fields.names then fields.names else fields.names ++ [name] := by
  induction fields with
  | nil => rfl
  | cons f rest ih =>
    obtain ⟨n, w⟩ := f
    rw [set]
    by_cases heq : n = name
    · simp [heq]
    · rw [if_neg heq, names_cons, ih]
      split <;> simp_all [Ne.symm heq]

theorem nodup_names_set (h : fields.names.Nodup) (name : String) (v : Value) : (fields.set name v).names.Nodup := by
  rw [names_set]
  split
  · exact h
  · next hnew =>
    rw [← List.concat_eq_append]
    exact List.Nodup.concat hnew h

/-- What stands among the fields behind is what has been set, or stood there before. -/
theorem mem_set {f : String × Value} (h : f ∈ fields.set name v) : f = (name, v) ∨ f ∈ fields := by
  induction fields with
  | nil => exact .inl (List.mem_singleton.1 h)
  | cons g rest ih =>
    obtain ⟨n, w⟩ := g
    rw [set] at h
    split at h
    · next heq =>
      rcases List.mem_cons.1 h with rfl | hmem
      · exact .inl (by rw [heq])
      · exact .inr (List.mem_cons_of_mem _ hmem)
    · rcases List.mem_cons.1 h with rfl | hmem
      · exact .inr List.mem_cons_self
      · exact (ih hmem).imp_right (List.mem_cons_of_mem _)

end SoapBinding.Fields
